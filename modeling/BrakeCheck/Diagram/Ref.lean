import BrakeCheck.Pairing

/-!
# References to nodes

A reference names a node by its index and says whether the function of the node is meant or its
complement.  An index has 31 bits, so that a reference fits a word of 32.

## Main definitions

* `Ref.of` — the reference to an index, of which the low 31 bits count.
* `Ref.one`, `Ref.zero` — the two constants: the terminal node and its complement.
* `Ref.word` — the reference as a word: the index, then the sign in the last bit.
-/

namespace BrakeCheck

/-- A node or its complement. -/
structure Ref where
  index : Nat
  negated : Bool
  deriving DecidableEq

namespace Ref

/-- The number of indices that a reference can tell apart. -/
def indexRange : Nat := 1 <<< 31

/-- The reference to an index, of which the low 31 bits count. -/
def of (index : Nat) (negated : Bool) : Ref := ⟨index % indexRange, negated⟩

/-- The index of the terminal node. -/
def terminal : Nat := 1

/-- The constant that is always true. -/
def one : Ref := ⟨terminal, false⟩

/-- The constant that is always false. -/
def zero : Ref := ⟨terminal, true⟩

/-- The complement of the function that a reference stands for. -/
protected def neg (r : Ref) : Ref := ⟨r.index, !r.negated⟩

instance : Neg Ref := ⟨Ref.neg⟩

/-- The complement of `r` if `flip` is set, and `r` itself otherwise. -/
def flipIf (r : Ref) (flip : Bool) : Ref := if flip then -r else r

/-- The reference as a word: the index, then the sign in the last bit. -/
def word (r : Ref) : Nat := 2 * r.index + r.negated.toNat

/-- How a reference is written: `@` and the index, after `~` for a complement. -/
def render (r : Ref) : String := (if r.negated then "~@" else "@") ++ toString r.index

instance : ToString Ref := ⟨render⟩

instance : Hashed Ref where
  hash r := r.word.toUInt64

instance : Hashed (Ref × Ref) where
  hash p := pair p.1.word.toUInt64 p.2.word.toUInt64

instance : Hashed (Ref × Ref × Ref) where
  hash t := triple t.1.word.toUInt64 t.2.1.word.toUInt64 t.2.2.word.toUInt64

/-- How high a node stands: constants are at zero, and any other node is above all older ones. -/
def height (r : Ref) : Nat := if r.index = terminal then 0 else r.index + 1

@[simp] theorem neg_index (r : Ref) : (-r).index = r.index := rfl

@[simp] theorem neg_negated (r : Ref) : (-r).negated = !r.negated := rfl

@[simp] theorem neg_neg (r : Ref) : - -r = r := by
  cases r with | mk i b => cases b <;> rfl

@[simp] theorem height_one : one.height = 0 := rfl

@[simp] theorem height_zero : zero.height = 0 := rfl

@[simp] theorem height_neg (r : Ref) : (-r).height = r.height := rfl

@[simp] theorem flipIf_false (r : Ref) : r.flipIf false = r := rfl

@[simp] theorem index_flipIf (r : Ref) (flip : Bool) : (r.flipIf flip).index = r.index := by
  cases flip <;> rfl

@[simp] theorem flipIf_flipIf (r : Ref) (flip : Bool) : (r.flipIf flip).flipIf flip = r := by
  cases flip with
  | false => rfl
  | true => exact neg_neg r

theorem flipIf_inj {r s : Ref} {flip : Bool} : r.flipIf flip = s.flipIf flip ↔ r = s := by
  constructor
  · intro h
    rw [← flipIf_flipIf r flip, h, flipIf_flipIf]
  · exact fun h => congrArg (fun q => flipIf q flip) h

/-- Only the two constants stand at height zero. -/
theorem height_pos {r : Ref} (h1 : r ≠ one) (h0 : r ≠ zero) : 0 < r.height := by
  obtain ⟨i, b⟩ := r
  unfold height
  split
  · next h => cases b <;> simp_all [one, zero]
  · exact Nat.succ_pos _

end Ref

end BrakeCheck
