import BrakeCheck.Diagram.Manager

/-!
# Choices between functions

The one operation from which all Boolean connectives are made: a function that agrees with one
function where a test holds and with another one elsewhere.  A choice is answered at once where
its members settle it; otherwise it is brought into a regular form, looked up among the computed
results, and split by its topmost variable.

## Main definitions

* `Choice.shortcut` — the answers and rewritings that need no look at the nodes.
* `Choice.regular` — the form under which results are kept: test and first value regular.
* `Manager.ite` — the function that a choice describes.
* `Manager.conj`, `Manager.disj`, `Manager.imp` — the connectives, and `Manager.conjAll`,
  `Manager.disjAll` for lists.
-/

namespace BrakeCheck

namespace Choice

/-- How a choice is written. -/
def render (c : Choice) : String := s!"apply_ite(f = {c.test}, g = {c.yes}, h = {c.no})"

/-- What can be said of a choice without a look at the nodes. -/
inductive Shortcut where
  /-- The choice is this function. -/
  | answer (r : Ref)
  /-- The choice is the same as this one, in which a member has become constant. -/
  | rewrite (c : Choice)
  /-- The choice has to be split. -/
  | split

/-- The answers and rewritings that need no look at the nodes. -/
def shortcut (c : Choice) : Shortcut :=
  if c.test = .one then .answer c.yes
  else if c.test = .zero then .answer c.no
  else if c.yes = c.no then .answer c.yes
  else if c.yes = .one ∧ c.no = .zero then .answer c.test
  else if c.yes = .zero ∧ c.no = .one then .answer (-c.test)
  else if c.yes = c.test then .rewrite { c with yes := .one }
  else if c.no = c.test then .rewrite { c with no := .zero }
  else if c.yes = -c.test then .rewrite { c with yes := .zero }
  else if c.no = -c.test then .rewrite { c with no := .one }
  else .split

/-- The same choice with a regular test: a complemented test exchanges the two values. -/
def withRegularTest (c : Choice) : Choice :=
  if c.test.negated then ⟨-c.test, c.no, c.yes⟩ else c

/-- The choice with a regular test and a regular value where the test holds, and whether its
result has to be complemented. -/
def regular (c : Choice) : Choice × Bool :=
  let c := c.withRegularTest
  if c.yes.negated then (⟨c.test, -c.yes, -c.no⟩, true) else (c, false)

/-- The heights of the members together; it sinks on the way to the constants. -/
def height (c : Choice) : Nat := c.test.height + c.yes.height + c.no.height

/-- A rewriting replaces a member that is no constant by one that is. -/
theorem height_lt_of_shortcut {c d : Choice} (h : c.shortcut = .rewrite d) :
    d.height < c.height := by
  obtain ⟨f, g, k⟩ := c
  unfold shortcut at h
  split at h; · simp at h
  split at h; · simp at h
  next h1 h0 =>
  have hf : 0 < f.height := Ref.height_pos h1 h0
  repeat' split at h
  all_goals first | (simp at h; done) | skip
  all_goals simp only [Shortcut.rewrite.injEq] at h; subst h; simp_all [height]

end Choice

namespace Manager

/-! ### Splitting a choice -/

/-- The topmost variable of a choice whose test is no constant. -/
def topVar (m : Manager) (c : Choice) : Except Fault Nat := do
  let i ← m.var c.test
  let j ← m.var c.yes
  let k ← m.var c.no
  if i = 0 then throw .constantTest
  let top := if j = 0 then i else min i j
  return if k = 0 then top else min top k

/-- The topmost variable of a choice, and the two choices that remain where it is false and where
it is true. -/
def split (m : Manager) (c : Choice) : Except Fault (Nat × Choice × Choice) := do
  let v ← m.topVar c
  let (f0, f1) ← m.cofactors c.test v
  let (g0, g1) ← m.cofactors c.yes v
  let (h0, h1) ← m.cofactors c.no v
  return (v, ⟨f0, g0, h0⟩, ⟨f1, g1, h1⟩)

/-! ### Computed results -/

/-- The result kept for a choice, if there is one. -/
def known (c : Choice) : Step Manager (Option Ref) :=
  modifyGet fun m =>
    let (found, computed) := m.computed.lookup c
    (found, { m with computed })

/-- Keeps the result of a choice. -/
def remember (c : Choice) (r : Ref) : Step Manager Unit :=
  modify fun m => { m with computed := m.computed.insert c r }

/-! ### The choice -/

/-- The function that agrees with `c.yes` where `c.test` holds and with `c.no` elsewhere. -/
def ite (c : Choice) : Step Manager Ref := do
  note .debug .diagram c.render
  match _h : c.shortcut with
  | .answer r => return r
  | .rewrite d => ite d
  | .split =>
    let (key, flip) := c.regular
    match ← known key with
    | some r =>
      note .debug .diagram s!"cache: {key.render} -> {r}"
      return r.flipIf flip
    | none =>
      let (v, no, yes) ← Step.query (·.split key)
      if _h : no.height < c.height ∧ yes.height < c.height then
        let low ← ite no
        let high ← ite yes
        let r ← mkNode v low high
        note .debug .diagram s!"computed: {key.render} -> {r}"
        remember key r
        return r.flipIf flip
      else throw .childNotOlder
termination_by c.height
decreasing_by
  · exact Choice.height_lt_of_shortcut _h
  · exact _h.1
  · exact _h.2

/-- Where both hold. -/
def conj (a b : Ref) : Step Manager Ref := ite ⟨a, b, .zero⟩

/-- Where one of the two holds. -/
def disj (a b : Ref) : Step Manager Ref := ite ⟨a, .one, b⟩

/-- Where the first does not hold or the second does. -/
def imp (a b : Ref) : Step Manager Ref := ite ⟨a, b, .one⟩

/-- Where `acc` and all members of a list hold; nothing is left to do once that is nowhere. -/
def conjFrom (acc : Ref) : List Ref → Step Manager Ref
  | [] => pure acc
  | r :: rs => do
    let acc ← conj acc r
    if acc = .zero then return acc else conjFrom acc rs

/-- Where all members of a list hold. -/
def conjAll (rs : List Ref) : Step Manager Ref := conjFrom .one rs

/-- Where `acc` or some member of a list holds; nothing is left to do once that is everywhere. -/
def disjFrom (acc : Ref) : List Ref → Step Manager Ref
  | [] => pure acc
  | r :: rs => do
    let acc ← disj acc r
    if acc = .one then return acc else disjFrom acc rs

/-- Where some member of a list holds. -/
def disjAll (rs : List Ref) : Step Manager Ref := disjFrom .zero rs

end Manager

end BrakeCheck
