/-!
# The elegant pairing of words

Two words are folded into one by walking the square shells of the plane: the shell of `(a, b)` is
the larger of the two numbers, and the pairs of one shell have consecutive values.  Arithmetic is
that of 64-bit words.

## Main definitions

* `pair`, `triple` — the folded words.
* `Hashed` — the types whose values have a hash word.
-/

namespace BrakeCheck

/-- The word of a pair: its place on the walk along the square shells. -/
def pair (a b : UInt64) : UInt64 := if a < b then b * b + a else a * a + a + b

/-- The word of a triple: the word of its first two members, paired with the third. -/
def triple (a b c : UInt64) : UInt64 := pair (pair a b) c

/-- The values of `α` have a hash word. -/
class Hashed (α : Type) where
  /-- The hash word of a value. -/
  hash : α → UInt64

instance : Hashed (UInt64 × UInt64) where
  hash v := pair v.1 v.2

instance : Hashed (UInt64 × UInt64 × UInt64) where
  hash v := triple v.1 v.2.1 v.2.2

/-- The place of a value among `n`: its hash word modulo `n`. -/
def Hashed.place {α : Type} [Hashed α] (v : α) (n : Nat) : Nat := (Hashed.hash v).toNat % n

theorem Hashed.place_lt {α : Type} [Hashed α] (v : α) {n : Nat} (h : 0 < n) :
    Hashed.place v n < n := Nat.mod_lt _ h

/-- Among a power of two, the place of a value is given by the low bits of its hash word. -/
theorem Hashed.toNat_and_mask {α : Type} [Hashed α] {bits : Nat} (hbits : bits ≤ 24) (v : α) :
    (Hashed.hash v &&& .ofNat ((1 <<< bits) - 1)).toNat = Hashed.place v (1 <<< bits) := by
  have hlt : (1 <<< bits) - 1 < UInt64.size := by
    rw [Nat.one_shiftLeft]
    have hle : 2 ^ bits ≤ 2 ^ 24 := Nat.pow_le_pow_right (by decide) hbits
    exact Nat.lt_of_le_of_lt (Nat.sub_le_sub_right hle 1) (by decide)
  rw [UInt64.toNat_and, UInt64.toNat_ofNat_of_lt' hlt, Hashed.place, Nat.one_shiftLeft,
    Nat.and_two_pow_sub_one_eq_mod]

end BrakeCheck
