import BrakeCheck.Proofs.Canonical
import BrakeCheck.Proofs.Requests

/-!
# Cubes and their literals

A cube can be made in two ways: stacked from its literals at once, or as the conjunction of
functions that are the literals, in any order.  Both are the same function, and so they have the
same reference, whichever of them is made first.

A cube has one path only, and its literals are those of the cube in the order of their variables.
This holds of every reference that stands for a cube: under its topmost literal is the rest of the
cube, and the other edge is the constant false.

## Main definitions

* `Manager.literal` — the function of a literal.
* `Manager.conjLiterals` — the conjunction of such functions.

## Main statements

* `Manager.Denotes.follows_cube` — the path of a cube.
* `Manager.cube_of_reached` — both ways to make a cube, and what is read off it.
-/

namespace BrakeCheck

namespace Manager

variable {m : Manager} {ls ks : List Literal}

/-! ### The path of a cube -/

/-- The edges of a cube under its topmost literal: one is the rest of the cube, and the other one is
the constant false. -/
theorem Denotes.exists_edges (wf : m.WellFormed) {l : Literal} {q : Ref} (hpos : 0 < l.var)
    (hrest : ∀ k ∈ ls, l.var < k.var) (hq : m.Denotes q (Literal.allHold (l :: ls))) :
    ∃ low high, m.Cofactors l.var q low high ∧
      m.Denotes (if l.isPositive then high else low) (Literal.allHold ls) ∧
      (if l.isPositive then low else high) = .zero := by
  have hignores : ∀ a b : Nat → Bool, (∀ x, l.var ≤ x → a x = b x) → m.holds a q = m.holds b q := by
    intro a b hab
    rw [hq.meaning, hq.meaning]
    refine Literal.allHold_congr fun k hk => hab k.var ?_
    rcases List.mem_cons.1 hk with rfl | hk
    · exact Nat.le_refl _
    · exact Nat.le_of_lt (hrest k hk)
  obtain ⟨low, high, hcofactors⟩ := exists_cofactors wf hpos hq.has hignores
  -- with a value for the topmost variable its literal is decided, and the others do not notice
  have hvalue : ∀ (a : Nat → Bool) (value : Bool), m.holds (Function.update a l.var value) q =
      (value == l.isPositive && Literal.allHold ls a) := by
    intro a value
    rw [hq.meaning, Literal.allHold_cons, Literal.holds, Function.update_self]
    exact congrArg _ (Literal.allHold_congr fun k hk =>
      Function.update_of_ne (Nat.ne_of_gt (hrest k hk)) _ a)
  have hlow : ∀ a, m.holds a low = (false == l.isPositive && Literal.allHold ls a) := fun a => by
    rw [hcofactors.branch.holds_low wf hcofactors.meaning, hvalue]
  have hhigh : ∀ a, m.holds a high = (true == l.isPositive && Literal.allHold ls a) := fun a => by
    rw [hcofactors.branch.holds_high wf hcofactors.meaning, hvalue]
  refine ⟨low, high, hcofactors, ?_⟩
  cases hsign : l.isPositive with
  | true =>
    simp only [hsign] at hlow hhigh
    exact ⟨⟨hcofactors.branch.has_high, hhigh⟩, (eq_zero_iff wf hcofactors.branch.has_low).2 hlow⟩
  | false =>
    simp only [hsign] at hlow hhigh
    exact ⟨⟨hcofactors.branch.has_low, hlow⟩, (eq_zero_iff wf hcofactors.branch.has_high).2 hhigh⟩

/-- The path of a cube has just its literals.  By induction on the literals from the topmost one. -/
theorem Denotes.follows_cube (wf : m.WellFormed)
    (hrange : ∀ l ∈ ls, 0 < l.var ∧ l.var < Literal.varRange)
    (hascending : ls.Pairwise fun l k => l.var < k.var) {q : Ref}
    (hq : m.Denotes q (Literal.allHold ls)) : m.Follows q ls := by
  induction ls generalizing q with
  | nil =>
    obtain rfl : q = .one := (eq_one_iff wf hq.has).2 hq.meaning
    exact .one
  | cons l ls ih =>
    obtain ⟨⟨hpos, hlt⟩, hrangeRest⟩ := List.forall_mem_cons.1 hrange
    obtain ⟨hfirst, hascendingRest⟩ := List.pairwise_cons.1 hascending
    obtain ⟨low, high, hcofactors, hnext, hother⟩ := hq.exists_edges wf hpos hfirst
    have hfollows := ih hrangeRest hascendingRest hnext
    -- the path takes the edge to the rest, as the other one is the constant false
    have htaken : low ≠ high ∧ l.isPositive = decide (high ≠ .zero) := by
      have hne := hfollows.ne_zero
      cases hsign : l.isPositive with
      | true =>
        rw [hsign] at hne hother
        exact ⟨fun heq => hne (heq.symm.trans hother), (decide_eq_true hne).symm⟩
      | false =>
        rw [hsign] at hne hother
        exact ⟨fun heq => hne (heq.trans hother), (decide_eq_false (not_not.2 hother)).symm⟩
    obtain ⟨n, hterminal, hn, hvar, rfl, rfl⟩ :=
      hcofactors.branch.edges_eq wf htaken.1 hq.has hcofactors.meaning
    exact .edge hterminal hn htaken.2 rfl hvar.symm rfl (hvar ▸ l.create_var hpos hlt) hfollows

/-- What is found from a cube is its literals in the order of their variables. -/
theorem Denotes.path_cube (wf : m.WellFormed)
    (hrange : ∀ l ∈ ls, 0 < l.var ∧ l.var < Literal.varRange)
    (hdistinct : ls.Pairwise fun l k => l.var ≠ k.var) {q : Ref}
    (hq : m.Denotes q (Literal.allHold ls)) : m.path q = .ok (some (bottomUp ls).reverse) := by
  have hperm : (bottomUp ls).reverse.Perm ls := (List.reverse_perm _).trans (bottomUp_perm ls)
  have hascending : (bottomUp ls).reverse.Pairwise fun l k => l.var < k.var :=
    List.pairwise_reverse.2 (bottomUp_descending hdistinct)
  have hsorted : m.Denotes q (Literal.allHold (bottomUp ls).reverse) :=
    ⟨hq.has, fun a => by rw [hq.meaning, Literal.allHold_perm hperm]⟩
  have hfollows := hsorted.follows_cube wf (fun l hl => hrange l (hperm.mem_iff.1 hl)) hascending
  rw [path, if_neg hfollows.ne_zero, hfollows.pathFrom_eq wf]
  rfl

/-! ### Conjunctions of literals -/

/-- The function that is true where a literal holds. -/
def literal (l : Literal) : Step Manager Ref := do
  let r ← mkVar l.var
  return if l.isPositive then r else -r

/-- The conjunction of the functions of literals, in the order of the list. -/
def conjLiterals (ls : List Literal) : Step Manager Ref := do conjAll (← ls.mapM literal)

theorem literal_grows (l : Literal) : Step.Grows (literal l) :=
  (mkVar_grows l.var).bind fun _ => Step.Grows.pure _

theorem conjLiterals_grows (ls : List Literal) : Step.Grows (conjLiterals ls) :=
  (Step.Grows.mapM literal_grows ls).bind fun _ => conjFrom_grows _ _

theorem literal_spec (wf : m.WellFormed) {l : Literal} (hpos : 0 < l.var) :
    Step.Yields (literal l) m fun r t => t.WellFormed ∧ t.Denotes r l.holds := by
  refine (mkVar_spec wf hpos).bind (fun _ => Step.Grows.pure _) fun r t _ ⟨wft, hr, _⟩ =>
    Step.Yields.pure ⟨wft, ?_⟩
  unfold Literal.holds
  cases l.isPositive with
  | true => exact ⟨hr.has, fun a => by simp [hr.meaning]⟩
  | false => exact ⟨has_neg.2 hr.has, fun a => by simp [holds_neg, hr.meaning]⟩

/-- The functions of a list of literals hold all together where the literals do. -/
theorem mapM_literal_spec (wf : m.WellFormed) (hpos : ∀ l ∈ ls, 0 < l.var) :
    Step.Yields (ls.mapM literal) m fun rs t => t.WellFormed ∧ (∀ r ∈ rs, t.Has r) ∧
      ∀ a, (rs.all fun r => t.holds a r) = Literal.allHold ls a := by
  induction ls generalizing m with
  | nil => exact Step.Yields.pure ⟨wf, by simp, fun _ => rfl⟩
  | cons l ls ih =>
    obtain ⟨hl, hls⟩ := List.forall_mem_cons.1 hpos
    rw [List.mapM_cons]
    refine (literal_spec wf hl).bind (fun r => (Step.Grows.mapM literal_grows ls).bind fun _ =>
      Step.Grows.pure _) fun r t _ ⟨wft, hr⟩ => ?_
    refine (ih wft hls).bind (fun _ => Step.Grows.pure _) fun rs u hu ⟨wfu, hrs, hall⟩ =>
      Step.Yields.pure ⟨wfu, List.forall_mem_cons.2 ⟨hr.has.mono hu, hrs⟩, fun a => ?_⟩
    rw [List.all_cons, hall, (hr.mono wft hu).meaning, Literal.allHold_cons]

/-- The contract of a conjunction of literals. -/
theorem conjLiterals_spec (wf : m.WellFormed) (hpos : ∀ l ∈ ls, 0 < l.var) :
    Step.Yields (conjLiterals ls) m fun r t =>
      t.WellFormed ∧ t.Denotes r (Literal.allHold ls) := by
  refine (mapM_literal_spec wf hpos).bind (fun _ => conjFrom_grows _ _)
    fun rs t _ ⟨wft, hrs, hall⟩ => (conjAll_spec wft hrs).imp fun r u _ ⟨wfu, hr⟩ =>
      ⟨wfu, hr.has, fun a => ?_⟩
  rw [hr.meaning, hall]

/-! ### Cubes in every store -/

/-- In every store that orderly requests lead to, a cube of literals over distinct variables has the
reference of the conjunction of their functions in any order, whichever of the two is made first and
whatever is made in between.  The path that is found from it, then or later, has exactly its
literals, in the order of their variables. -/
theorem cube_of_reached (h : m.Reached)
    (hrange : ∀ l ∈ ls, 0 < l.var ∧ l.var < Literal.varRange)
    (hdistinct : ls.Pairwise fun l k => l.var ≠ k.var) (hperm : ks.Perm ls) :
    (Step.Yields (mkCube ls) m fun r t => t.WellFormed ∧
      (∀ u : Manager, u.WellFormed → u.Extends t →
        Step.Yields (conjLiterals ks) u fun q _ => q = r) ∧
      ∃ path : List Literal, path.Perm ls ∧ (path.Pairwise fun l k => l.var < k.var) ∧
        ∀ u : Manager, u.WellFormed → u.Extends t → u.path r = .ok (some path)) ∧
    Step.Yields (conjLiterals ks) m fun q t => t.WellFormed ∧
      ∀ u : Manager, u.WellFormed → u.Extends t → Step.Yields (mkCube ls) u fun r _ => r = q := by
  have hpos : ∀ l ∈ ls, 0 < l.var := fun l hl => (hrange l hl).1
  have hposPerm : ∀ k ∈ ks, 0 < k.var := fun k hk => hpos k (hperm.mem_iff.1 hk)
  -- the two conjunctions are the same function
  have hconj : ∀ {u : Manager}, u.WellFormed → Step.Yields (conjLiterals ks) u fun q w =>
      w.WellFormed ∧ w.Denotes q (Literal.allHold ls) := fun wfu =>
    (conjLiterals_spec wfu hposPerm).imp fun q w _ ⟨wfw, hq⟩ =>
      ⟨wfw, hq.has, fun a => by rw [hq.meaning, Literal.allHold_perm hperm]⟩
  refine ⟨Step.Yields.of_addressable (mkCube_grows ls) fun hfit => ?_,
    Step.Yields.of_addressable (conjLiterals_grows ks) fun hfit => ?_⟩
  · refine (mkCube_spec (h.wellFormed hfit) hpos hdistinct).imp fun r t _ ⟨wft, hr⟩ =>
      ⟨wft, fun u wfu hu => hr.yields_eq wft hu (hconj wfu), (bottomUp ls).reverse,
        (List.reverse_perm _).trans (bottomUp_perm ls),
        List.pairwise_reverse.2 (bottomUp_descending hdistinct), fun u wfu hu => ?_⟩
    exact (hr.mono wft hu).path_cube wfu hrange hdistinct
  · exact (hconj (h.wellFormed hfit)).imp fun q t _ ⟨wft, hq⟩ =>
      ⟨wft, fun u wfu hu => hq.yields_eq wft hu (mkCube_spec wfu hpos hdistinct)⟩

/-- A cube of three literals in a store that has something else in it, and their conjunction in
another order. -/
theorem cube_of_reached_three_literals :
    ∃ (m : Manager) (r : Ref) (t : Manager) (path : List Literal), m.Reached ∧
      (mkCube [⟨-2⟩, ⟨3⟩, ⟨-1⟩]).perform m = (.ok r, t) ∧
      ((conjLiterals [⟨3⟩, ⟨-1⟩, ⟨-2⟩]).perform t).1 = .ok r ∧
      path.Perm [⟨-2⟩, ⟨3⟩, ⟨-1⟩] ∧ t.path r = .ok (some path) := by
  obtain ⟨m, hcreate⟩ := exists_create (Nat.zero_le 24) .closed
  obtain rfl := eq_of_create hcreate
  have hreached := ((Reached.create hcreate).serve (q := .var 2) (by decide +kernel)).serve
    (q := .node 1 ⟨2, true⟩ .one) (by decide +kernel)
  obtain ⟨hcube, -⟩ := @cube_of_reached _ [⟨-2⟩, ⟨3⟩, ⟨-1⟩] [⟨3⟩, ⟨-1⟩, ⟨-2⟩] hreached
    (by decide) (by decide) (by decide)
  have hsorted : bottomUp [⟨-2⟩, ⟨3⟩, ⟨-1⟩] = [⟨3⟩, ⟨-2⟩, ⟨-1⟩] := by
    simp [bottomUp, List.mergeSort, Literal.var]
  obtain ⟨r, t, hrun, -, wft, hconj, path, hperm, -, hpath⟩ := hcube <| show Addressable _ by
    rw [mkCube, hsorted]
    decide +kernel
  have hfit : ((conjLiterals [⟨3⟩, ⟨-1⟩, ⟨-2⟩]).perform t).2.Addressable := by
    refine (congrArg (fun run : _ × Manager =>
      ((conjLiterals [⟨3⟩, ⟨-1⟩, ⟨-2⟩]).perform run.2).2.Addressable) hrun).mp ?_
    rw [mkCube, hsorted]
    decide +kernel
  obtain ⟨q, w, hagain, -, rfl⟩ := hconj t wft (Extends.refl t) hfit
  exact ⟨_, q, t, path, hreached, hrun, by rw [hagain], hperm, hpath t wft (Extends.refl t)⟩

end Manager

end BrakeCheck
