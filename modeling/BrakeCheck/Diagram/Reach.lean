import BrakeCheck.Diagram.Manager

/-!
# Reachable nodes

The nodes that take part in a function: those that can be reached from a reference, and the
terminal.  They are found by a walk with a queue of indices.  An index that comes up for the first
time is marked as seen, and the two edges of its node are queued, whether or not their ends have
been seen or queued already.  The terminal, which has no edges, is seen from the beginning.

## Main definitions

* `Manager.visit` — the walk.
* `Manager.descendants` — the indices of the nodes that can be reached, ascending.
* `Manager.extent` — how many there are.
-/

namespace BrakeCheck

namespace Manager

/-- An index that is marked as seen is one less that has not been seen. -/
theorem count_set_true {seen : Array Bool} {i : Nat} (hi : i < seen.size)
    (hseen : ¬ seen[i] = true) : (seen.set i true).count false + 1 = seen.count false := by
  have hfalse : seen[i] = false := Bool.eq_false_iff.2 hseen
  have hpos : 0 < seen.count false := Array.count_pos_iff.2 (hfalse ▸ Array.getElem_mem hi)
  rw [Array.count_set hi, hfalse]
  simp only [BEq.rfl, if_true, Bool.true_beq, Bool.false_eq_true, if_false]
  omega

/-- The marks of what has been seen when the queue is empty.  Indices are taken out of `queue`, and
put in at the head of `later`, which takes the place of `queue` when that is used up.  Every step
takes an index out, turns `later` around, or marks the index that it takes out and puts two in. -/
def visit (m : Manager) (seen : Array Bool) : List Nat → List Nat → Except Fault (Array Bool)
  | [], [] => .ok seen
  | [], i :: later => m.visit seen (i :: later).reverse []
  | i :: queue, later =>
    if hi : i < seen.size then
      if hseen : seen[i] = true then m.visit seen queue later
      else do
        let n ← m.nodes.value i
        m.visit (seen.set i true) queue (n.high.index :: n.low.index :: later)
    else .error .indexOutOfBounds
termination_by queue later => 4 * seen.count false + queue.length + 2 * later.length
decreasing_by
  · simp only [List.length_reverse, List.length_cons, List.length_nil]
    omega
  · rw [List.length_cons]
    omega
  · have hcount := count_set_true hi hseen
    simp only [List.length_cons]
    omega

/-- Marks for all indices that a store has, and for the one after them; the terminal is marked. -/
def freshMarks (m : Manager) : Array Bool :=
  (Array.replicate (m.nodes.size + 2) false).set Ref.terminal true
    (by rw [Array.size_replicate, Ref.terminal]; omega)

/-- The indices of the terminal and of all nodes that can be reached from the references,
ascending. -/
def descendants (m : Manager) (rs : List Ref) : Except Fault (List Nat) := do
  let seen ← m.visit m.freshMarks (rs.map Ref.index) []
  return (List.range seen.size).filter (seen.getD · false)

/-- The number of nodes that take part in a function. -/
def extent (m : Manager) (r : Ref) : Except Fault Nat := (m.descendants [r]).map List.length

end Manager

end BrakeCheck
