import BrakeCheck.Proofs.Extent
import BrakeCheck.Proofs.Requests
import Mathlib.Data.Set.Card

/-!
# The descendants of references, and their number

The walk that lists the descendants of references reads the nodes under the indices that it lists
and no others, and of these not the terminal: whatever else is stored, and whatever stands in the
place of the terminal, the list is the same.  The index zero, under which nothing is ever stored, is
not among them.

How many descendants a reference has is a property of its function.  When the variables up to some
number have values, what is left is a function of the other variables; the number is that of the
functions that can be left, where a function and its complement count as one.

## Main definitions

* `complements` — equal functions, and functions that are complements of each other.
* `subfunctionClasses` — the subfunctions of a function, where complements count as one.

## Main statements

* `Manager.Reaches.congr` — what can be reached is read off the nodes that can be reached.
* `Manager.Denotes.encard_subfunctionClasses` — the number of subfunctions is the extent.
* `Manager.descendants_of_reached` — the descendants in a store that requests lead to, and their
  number.
-/

namespace BrakeCheck

/-! ### Functions up to complements -/

/-- Two functions are equal, or one of them is the complement of the other. -/
def complements : Setoid ((Nat → Bool) → Bool) where
  r f g := f = g ∨ f = fun x => !g x
  iseqv := {
    refl := fun _ => Or.inl rfl
    symm := by
      rintro f g (rfl | rfl)
      · exact Or.inl rfl
      · exact Or.inr (by simp)
    trans := by
      rintro f g h (rfl | rfl) (rfl | rfl)
      · exact Or.inl rfl
      · exact Or.inr rfl
      · exact Or.inr rfl
      · exact Or.inl (by simp) }

/-- The subfunctions of a function, where a function and its complement are the same. -/
def subfunctionClasses (f : (Nat → Bool) → Bool) : Set (Quotient complements) :=
  Quotient.mk complements '' { g | Subfunction f g }

/-- A function and its complement have one regular form, and no other functions have it. -/
theorem regularForm_eq_iff {f g : (Nat → Bool) → Bool} :
    regularForm f = regularForm g ↔ complements.r f g := by
  constructor
  · intro h
    by_cases hvalue : f (fun _ => true) = g fun _ => true
    · refine Or.inl (funext fun x => ?_)
      have hx : (f x == f fun _ => true) = (g x == g fun _ => true) := congrFun h x
      rw [hvalue] at hx
      revert hx
      cases f x <;> cases g x <;> cases g (fun _ => true) <;> simp
    · refine Or.inr (funext fun x => ?_)
      have hx : (f x == f fun _ => true) = (g x == g fun _ => true) := congrFun h x
      revert hx hvalue
      cases f x <;> cases g x <;> cases f (fun _ => true) <;> cases g (fun _ => true) <;> simp
  · rintro (rfl | rfl)
    · rfl
    · funext x
      simp [regularForm]

/-- There are as many classes of subfunctions as regular forms of them. -/
theorem encard_subfunctionClasses (f : (Nat → Bool) → Bool) :
    (subfunctionClasses f).encard = (regularForm '' { g | Subfunction f g }).encard := by
  let form : Quotient complements → (Nat → Bool) → Bool :=
    Quotient.lift regularForm fun _ _ h => regularForm_eq_iff.2 h
  have hinjective : Function.Injective form := by
    intro a b hab
    induction a using Quotient.inductionOn with
    | _ g =>
      induction b using Quotient.inductionOn with
      | _ h => exact Quotient.sound (regularForm_eq_iff.1 hab)
  have himage : form '' subfunctionClasses f = regularForm '' { g | Subfunction f g } := by
    rw [subfunctionClasses, Set.image_image]
    rfl
  rw [← himage, hinjective.encard_image]

namespace Manager

variable {m u : Manager} {r : Ref} {rs : List Ref} {i : Nat}

/-- The extent of a reference is the number of subfunctions of its function. -/
theorem Denotes.encard_subfunctionClasses (wf : m.WellFormed) {f : (Nat → Bool) → Bool}
    (hr : m.Denotes r f) {size : Nat} (hsize : m.extent r = .ok size) :
    (subfunctionClasses f).encard = size := by
  obtain ⟨is, -, -, hmem⟩ := descendants_spec wf (List.forall_mem_singleton.2 hr.has)
  have hfinite : { i | m.Reaches [.one, r] i }.Finite :=
    (List.finite_toSet is).subset fun i hi => (hmem i).2 hi
  have hforms : (regularForm '' { g | Subfunction f g }).Finite :=
    image_reaches wf hr ▸ hfinite.image _
  obtain rfl : extentOf f = size := Except.ok.inj ((hr.extent_eq wf).symm.trans hsize)
  rw [BrakeCheck.encard_subfunctionClasses, extentOf, hforms.cast_ncard_eq]

/-! ### What is read -/

/-- Besides what can be reached from references the terminal can always be reached. -/
theorem reaches_one_cons_iff :
    m.Reaches (.one :: rs) i ↔ i = Ref.terminal ∨ m.Reaches rs i := by
  constructor
  · intro h
    induction h with
    | root hr =>
      rcases List.mem_cons.1 hr with rfl | hr
      · exact Or.inl rfl
      · exact Or.inr (.root hr)
    | child _ hrs hr ih =>
      -- the terminal has no edges
      exact Or.inr ((ih.resolve_left (mem_children hrs hr).1).child hrs hr)
  · rintro (rfl | h)
    · exact .root (r := .one) List.mem_cons_self
    · exact Reaches.trans (fun r hr => .root (List.mem_cons_of_mem _ hr)) h

/-- What can be reached in one store can be reached in another one, if this has the same nodes under
the indices that can be reached in the first one; the terminal may be missing. -/
theorem Reaches.of_agree
    (hsame : ∀ i, m.Reaches rs i → i ≠ Ref.terminal → u.nodes.value? i = m.nodes.value? i)
    (h : m.Reaches rs i) : u.Reaches rs i := by
  induction h with
  | root hr => exact .root hr
  | child hreach hrs hr ih =>
    obtain ⟨hterminal, n, hn, hedge⟩ := mem_children hrs hr
    exact ih.child (children_of_value? hterminal ((hsame _ hreach hterminal).trans hn))
      (by simpa using hedge)

/-- Stores with the same nodes under the indices that can be reached in one of them have the same
indices that can be reached. -/
theorem Reaches.congr
    (hsame : ∀ i, m.Reaches rs i → i ≠ Ref.terminal → u.nodes.value? i = m.nodes.value? i) :
    u.Reaches rs i ↔ m.Reaches rs i := by
  refine ⟨fun h => ?_, Reaches.of_agree hsame⟩
  induction h with
  | root hr => exact .root hr
  | child _ hrs hr ih =>
    obtain ⟨hterminal, n, hn, hedge⟩ := mem_children hrs hr
    exact ih.child (children_of_value? hterminal ((hsame _ ih hterminal).symm.trans hn))
      (by simpa using hedge)

/-- Stores that have the same nodes under the descendants in one of them, except for the terminal,
list the same descendants. -/
theorem descendants_congr {is : List Nat} (hstored : m.AllStored (.one :: rs))
    (his : m.descendants rs = .ok is)
    (hsame : ∀ i ∈ is, i ≠ Ref.terminal → u.nodes.value? i = m.nodes.value? i) :
    u.descendants rs = .ok is := by
  obtain ⟨is', his', hascending, hmem⟩ := descendants_of_stored hstored
  obtain rfl : is' = is := Except.ok.inj (his'.symm.trans his)
  have hagree : ∀ i, m.Reaches (.one :: rs) i → i ≠ Ref.terminal →
      u.nodes.value? i = m.nodes.value? i := fun i hi => hsame i ((hmem i).2 hi)
  have hstored' : u.AllStored (.one :: rs) := by
    intro i hi hterminal
    have hreach := (Reaches.congr hagree).1 hi
    rw [hagree i hreach hterminal]
    exact hstored i hreach hterminal
  obtain ⟨js, hjs, hascending', hmem'⟩ := descendants_of_stored hstored'
  have heq : js = is' := by
    refine (List.perm_of_nodup_nodup_toFinset_eq ?_ ?_ ?_).eq_of_pairwise' hascending' hascending
    · exact hascending'.imp Nat.ne_of_lt
    · exact hascending.imp Nat.ne_of_lt
    · ext i
      rw [List.mem_toFinset, List.mem_toFinset, hmem', hmem, Reaches.congr hagree]
  rw [hjs, heq]

/-! ### Stores of runs -/

/-- In every store that orderly requests lead to, the descendants of references of it are listed:
the terminal, and the indices that can be reached from the references, each once.  The list depends
on nothing but the nodes under the indices in it, of which the terminal is not read, and the index
zero is not among them.  The number of descendants of a reference is the same for its complement;
it is the number of functions, up to complements, that are left when the variables up to any number
have any values; and so it is the same for every reference to this function, in all such stores. -/
theorem descendants_of_reached (h : m.Reached) (hfit : m.Addressable) :
    (∀ rs : List Ref, (∀ r ∈ rs, m.Has r) → ∃ is, m.descendants rs = .ok is ∧
      is.Pairwise (· < ·) ∧ (∀ i, i ∈ is ↔ i = Ref.terminal ∨ m.Reaches rs i) ∧ 0 ∉ is ∧
      ∀ u : Manager, (∀ i ∈ is, i ≠ Ref.terminal → u.nodes.value? i = m.nodes.value? i) →
        u.descendants rs = .ok is) ∧
    ∀ r : Ref, m.Has r → ∃ size : Nat, m.extent r = .ok size ∧ m.extent (-r) = .ok size ∧
      (subfunctionClasses (m.holds · r)).encard = size ∧
      ∀ (u : Manager) (q : Ref), u.Reached → u.Addressable → u.Has q →
        (∀ a, u.holds a q = m.holds a r) → u.extent q = .ok size := by
  have wf := h.wellFormed hfit
  constructor
  · intro rs hrs
    obtain ⟨is, his, hascending, hmem⟩ := descendants_spec wf hrs
    have hstored := wf.allStored hrs
    refine ⟨is, his, hascending, fun i => (hmem i).trans reaches_one_cons_iff, fun hzero => ?_,
      fun u hsame => descendants_congr hstored his hsame⟩
    have hsome := hstored 0 ((hmem 0).1 hzero) (by decide)
    cases hsome
  · intro r hr
    have hself : m.Denotes r (m.holds · r) := ⟨hr, fun _ => rfl⟩
    obtain ⟨size, hsize⟩ := extent_eq_ok wf hr
    refine ⟨size, hsize, hsize, hself.encard_subfunctionClasses wf hsize, ?_⟩
    intro u q hu hfit' hq hmeaning
    have hother : u.Denotes q (m.holds · r) := ⟨hq, hmeaning⟩
    rw [hother.extent_eq (hu.wellFormed hfit'), ← hself.extent_eq wf, hsize]

/-- The conjunction of two variables leaves itself, the second variable and the constants; the node
of the first variable is stored but does not take part. -/
theorem descendants_of_reached_conj_two_vars :
    ∃ (m : Manager) (r : Ref), m.Reached ∧ m.Has r ∧ (r.index = 4 ∧ (m.nodes.value? 2).isSome) ∧
      m.descendants [r] = .ok [1, 3, 4] ∧ (∀ i, m.Reaches [r] i → i ∈ [1, 3, 4]) ∧
      m.extent (-r) = .ok 3 ∧ (subfunctionClasses (m.holds · r)).encard = 3 := by
  obtain ⟨m, hcreate⟩ := exists_create (Nat.zero_le 24) .closed
  obtain rfl := eq_of_create hcreate
  have hreached := (((Reached.create hcreate).serve (q := .var 1) (by decide +kernel)).serve
    (q := .var 2) (by decide +kernel)).serve (q := .conj ⟨2, false⟩ ⟨3, false⟩) (by decide +kernel)
  obtain ⟨hlist, hnumber⟩ := descendants_of_reached hreached (by decide +kernel)
  obtain ⟨is, his, -, hmem, -⟩ := hlist [⟨4, false⟩] (by decide +kernel)
  obtain ⟨size, hsize, hcomplement, hclasses, -⟩ := hnumber ⟨4, false⟩ (by decide +kernel)
  obtain rfl : is = [1, 3, 4] :=
    Option.some.inj ((congrArg Except.toOption his).symm.trans (by decide +kernel))
  obtain rfl : size = 3 :=
    Option.some.inj ((congrArg Except.toOption hsize).symm.trans (by decide +kernel))
  exact ⟨_, ⟨4, false⟩, hreached, by decide +kernel, by decide +kernel, his,
    fun i hi => (hmem i).2 (Or.inr hi), hcomplement, hclasses⟩

end Manager

end BrakeCheck
