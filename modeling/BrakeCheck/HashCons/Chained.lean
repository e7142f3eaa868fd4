import BrakeCheck.HashCons
import Mathlib.Data.PFun

/-!
# Hash consing in one array

The same table as it lies in memory.  All values stand in one array, and with each of them a link:
the index of the next entry of its bucket, or zero at the end.  A bucket is the index of its first
entry.  A value is looked for by walking along the chain of its bucket, and a new one is linked to
the end of the chain.

Nothing in the layout keeps links from leading outside or around in a circle.  So a walk may stop
with a fault, and it may come to no end.

## Main definitions

* `Chained` — an array of entries, and the first entry of each bucket.
* `Chained.putStep`, `Chained.putFrom` — a step of the walk along a chain, and the walk.
* `Chained.put`, `Chained.add` — the operations of a table in this layout.
-/

namespace BrakeCheck

/-- A value, and the index of the next entry of its bucket; zero if there is none. -/
structure Chained.Entry (α : Type) where
  value : α
  next : Nat

/-- The entries in the order of their indices, the first one of each bucket, and the bits of a hash
word that say in which bucket a value belongs. -/
structure Chained (α : Type) where
  entries : Array (Chained.Entry α)
  heads : Array Nat
  mask : UInt64

/-- A computation that may stop with a fault and that may come to no end. -/
abbrev Walk : Type → Type := ExceptT Fault Part

namespace Chained

variable {α : Type}

/-- A table without values and with `2 ^ bits` buckets. -/
def empty (bits : Nat) : Chained α :=
  ⟨#[], Array.replicate (1 <<< bits) 0, .ofNat ((1 <<< bits) - 1)⟩

/-- The entry with an index, if there is one. -/
def at? (t : Chained α) : Nat → Option (Entry α)
  | 0 => none
  | i + 1 => t.entries[i]?

/-- Stores a value under the next index; it is the end of a chain, and no link leads to it. -/
def add (t : Chained α) (v : α) : Nat × Chained α :=
  (t.entries.size + 1, { t with entries := t.entries.push ⟨v, 0⟩ })

/-- Makes the entry with index `j` the one that follows the entry with index `i`. -/
def link (t : Chained α) (i j : Nat) : Chained α :=
  { t with entries := t.entries.modify (i - 1) fun e => { e with next := j } }

/-- The bucket in which a value belongs: the low bits of its hash word. -/
def bucketOf [Hashed α] (t : Chained α) (v : α) : Nat := (Hashed.hash v &&& t.mask).toNat

/-- A step of the walk along a chain, at the entry with index `i`: the walk ends at an entry with an
equal value, and at the last entry, to which a new one is then linked; else it goes on to the next
entry. -/
def putStep [BEq α] (t : Chained α) (v : α) (i : Nat) : Except Fault (Nat × Chained α) ⊕ Nat :=
  match t.at? i with
  | none => .inl (.error .indexOutOfBounds)
  | some e =>
    if e.value == v then .inl (.ok (i, t))
    else if e.next = 0 then
      let (j, t) := t.add v
      .inl (.ok (j, t.link i j))
    else .inr e.next

/-- The index of a value that has a place in the rest of a chain, from the entry with index `i` on:
the one it has there, or else the next one, to which the end of the chain is then linked. -/
def putFrom [BEq α] (t : Chained α) (v : α) : Nat → Walk (Nat × Chained α) :=
  PFun.fix fun i => Part.some (t.putStep v i)

/-- The index of a value: the one it has, or else the next one, which ends the chain of its
bucket. -/
def put [Hashed α] [BEq α] (t : Chained α) (v : α) : Walk (Nat × Chained α) :=
  let bucket := t.bucketOf v
  match t.heads[bucket]? with
  | none => throw .indexOutOfBounds
  | some 0 =>
    let (i, t) := t.add v
    pure (i, { t with heads := t.heads.setIfInBounds bucket i })
  | some i => t.putFrom v i

/-! ### Walks -/

variable [BEq α] {t : Chained α} {v : α} {i j : Nat}

theorem putFrom_of_inl {result : Except Fault (Nat × Chained α)}
    (h : t.putStep v i = .inl result) : t.putFrom v i = Part.some result :=
  Part.eq_some_iff.2 (PFun.fix_stop (Part.mem_some_iff.2 h.symm))

theorem putFrom_of_inr (h : t.putStep v i = .inr j) : t.putFrom v i = t.putFrom v j :=
  PFun.fix_fwd_eq (Part.mem_some_iff.2 h.symm)

end Chained

end BrakeCheck
