import BrakeCheck.Proofs.PathCount
import BrakeCheck.Proofs.Requests

/-!
# Blocking path after path covers a function exactly

One path says where a function holds, but not everywhere.  If the cube of the path is taken away
from the function and the same is done with what is left, again and again until nothing is left,
then the cubes together are the function, and no two of them meet: every cube lies inside what was
left before it, and outside of what is left after it.  There is an end to it because the number of
paths falls in every round, although the diagram of what is left is another one each time.

## Main definitions

* `Manager.Round` — a path that has been found, and its cube.
* `Manager.Exhausts` — the rounds from a function until nothing is left of it.
* `Manager.Covers` — the cubes of rounds are a function, and they are disjoint.

## Main statements

* `Manager.exists_round` — the contract of one round.
* `Manager.exists_exhausts` — there is an end to the rounds, and they cover the function.
* `Manager.paths_exact` — paths, one or all of them, in every store that requests lead to.
-/

namespace BrakeCheck.Manager

variable {m t : Manager} {r : Ref}

/-! ### Variables that fit the literals -/

/-- Variables that fit the literals are those below a bound. -/
theorem narrow_iff_within : m.Narrow ↔ m.Within (Literal.varRange - 1) := by
  have hpos : 0 < Literal.varRange := by decide
  unfold Narrow Within
  exact forall₃_congr fun i n _ => by omega

instance (m : Manager) : Decidable m.Narrow :=
  decidable_of_iff
    (∀ i ∈ List.range (m.nodes.size + 1), ∀ n ∈ m.nodes.value? i, n.var < Literal.varRange)
    ⟨fun h i n hn => h i (List.mem_range.2 (Nat.lt_succ_of_le
      (HashCons.isSome_value?_iff.1 (Option.isSome_of_eq_some hn)).2)) n hn,
      fun h i _ n hn => h i n hn⟩

/-- Blocking a path brings in no variable that does not fit the literals. -/
theorem LeadsToOne.narrow_block {ls : List Literal} (h : m.LeadsToOne r ls) (hnarrow : m.Narrow) :
    ((block r ls).perform m).2.Narrow := by
  have hwithin := narrow_iff_within.1 hnarrow
  refine narrow_iff_within.2 (block_keeps (kept_within _) (fun l hl => ?_) r m hwithin)
  obtain ⟨i, n, -, hn, hvar⟩ := h.branched l hl
  rw [← hvar]
  exact hwithin i n hn

/-! ### One round -/

/-- A path that has been found, and the function that is true exactly along it. -/
structure Round where
  literals : List Literal
  cube : Ref

/-- A round takes a path away from `r`, started in `m`: it leaves the function `q` and the
store `t`. -/
structure Round.Removes (x : Round) (m : Manager) (r q : Ref) (t : Manager) : Prop where
  wf : t.WellFormed
  narrow : t.Narrow
  grown : t.Extends m
  path : m.LeadsToOne r x.literals
  cube : t.Denotes x.cube (Literal.allHold x.literals)
  rest : t.Denotes q fun a => m.holds a r && !Literal.allHold x.literals a
  fewer : t.pathCount q < m.pathCount r

/-- The contract of a round: the cube of the path is made and taken away from the function. -/
theorem exists_round (wf : m.WellFormed) (hnarrow : m.Narrow) (hr : m.Has r) {ls : List Literal}
    (hfollows : m.Follows r ls) (hfit : ((block r ls).perform m).2.Addressable) :
    ∃ cube k q t, (mkCube ls).perform m = (.ok cube, k) ∧
      (conj r (-cube)).perform k = (.ok q, t) ∧ (block r ls).perform m = (.ok q, t) ∧
      Round.Removes ⟨ls, cube⟩ m r q t := by
  have hpath := (hfollows.leadsToOne wf).1
  have hnarrow' := hpath.narrow_block hnarrow
  have hdistinct := hpath.ascending.imp fun {l k : Literal} (h : l.var < k.var) => Nat.ne_of_lt h
  obtain ⟨cube, k, hcube, hk, wfk, hmeans⟩ := mkCube_spec wf (hpath.var_pos wf) hdistinct
    (Step.addressable_of_bind (fun _ => conj_grows _ _) hfit)
  have hblock : (block r ls).perform m = (conj r (-cube)).perform k := by
    rw [block, Step.perform_bind, hcube]
  rw [hblock] at hfit hnarrow'
  obtain ⟨q, t, hrest, ht, wft, hq⟩ := conj_spec wfk (hr.mono hk) (has_neg.2 hmeans.has) hfit
  rw [hrest] at hnarrow'
  have hleft : t.Denotes q fun a => m.holds a r && !Literal.allHold ls a := ⟨hq.has, fun a => by
    rw [hq.meaning, holds_neg, hmeans.meaning, holds_of_extends wf hk a hr]⟩
  exact ⟨cube, k, q, t, hcube, hrest, hblock.trans hrest, {
    wf := wft
    narrow := hnarrow'
    grown := Extends.trans ht hk
    path := hpath
    cube := hmeans.mono wfk ht
    rest := hleft
    fewer := hleft.pathCount_lt wft wf (Extends.trans ht hk) hr hfollows }⟩

/-! ### All rounds -/

/-- From a store and a function, the rounds in which a path is found, its cube is made and taken
away, until there is no path any more, and the store in the end. -/
inductive Exhausts : Manager → Ref → List Round → Manager → Prop where
  | done {m : Manager} {r : Ref} (hpath : m.path r = .ok none) : Exhausts m r [] m
  | round {m k l t : Manager} {r cube q : Ref} {ls : List Literal} {rounds : List Round}
      (hpath : m.path r = .ok (some ls)) (hcube : (mkCube ls).perform m = (.ok cube, k))
      (hrest : (conj r (-cube)).perform k = (.ok q, l)) (hrounds : Exhausts l q rounds t) :
      Exhausts m r (⟨ls, cube⟩ :: rounds) t

/-- Where there is a path, the search for all paths goes on with what is left. -/
theorem perform_pathsUpTo_succ {ls : List Literal} (hpath : m.path r = .ok (some ls))
    (limit : Nat) : (pathsUpTo r (limit + 1)).perform m =
      (do return ls :: (← pathsUpTo (← block r ls) limit) : Step Manager _).perform m := by
  rw [pathsUpTo, Step.perform_bind, Step.perform_query, hpath]

/-- The paths of the rounds are those that are found, unless the search for them is given up
earlier. -/
theorem Exhausts.perform_pathsUpTo {rounds : List Round} (h : Exhausts m r rounds t) {limit : Nat}
    (hlimit : rounds.length ≤ limit) :
    (pathsUpTo r limit).perform m = (.ok (rounds.map Round.literals), t) := by
  induction h generalizing limit with
  | done hpath =>
    cases limit with
    | zero => rfl
    | succ limit =>
      rw [pathsUpTo, Step.perform_bind, Step.perform_query, hpath]
      rfl
  | @round m k l t r cube q ls rounds hpath hcube hrest _ ih =>
    cases limit with
    | zero => exact absurd hlimit (Nat.not_succ_le_zero _)
    | succ limit =>
      have hblock : (block r ls).perform m = (.ok q, l) := by
        rw [block, Step.perform_bind, hcube]
        exact hrest
      rw [perform_pathsUpTo_succ hpath, Step.perform_bind, hblock]
      dsimp only
      rw [Step.perform_bind, ih (Nat.le_of_succ_le_succ hlimit)]
      rfl

/-- Rounds from `r` in the store `m` to the store `t` cover the function: every cube is a path with
growing variables, no two of them meet, and together they are the function. -/
structure Covers (m : Manager) (r : Ref) (rounds : List Round) (t : Manager) : Prop where
  wf : t.WellFormed
  grown : t.Extends m
  ascending : ∀ x ∈ rounds, x.literals.Pairwise fun l k => l.var < k.var
  cube : ∀ x ∈ rounds, t.Denotes x.cube (Literal.allHold x.literals)
  disjoint : rounds.Pairwise fun x y =>
    ∀ a, (Literal.allHold x.literals a && Literal.allHold y.literals a) = false
  total : ∀ a, m.holds a r = rounds.any fun x => Literal.allHold x.literals a

/-- Nothing is left of the constant false. -/
theorem covers_zero (wf : m.WellFormed) : m.Covers .zero [] m where
  wf := wf
  grown := Extends.refl m
  ascending := by simp
  cube := by simp
  disjoint := List.Pairwise.nil
  total a := holds_zero m a

/-- One more round at the beginning: the later ones cover what it has left. -/
theorem Covers.round {l : Manager} {x : Round} {q : Ref} {rounds : List Round}
    (hx : x.Removes m r q l) (h : l.Covers q rounds t) : m.Covers r (x :: rounds) t where
  wf := h.wf
  grown := Extends.trans h.grown hx.grown
  ascending := List.forall_mem_cons.2 ⟨hx.path.ascending, h.ascending⟩
  cube := List.forall_mem_cons.2 ⟨hx.cube.mono hx.wf h.grown, h.cube⟩
  disjoint := by
    refine List.pairwise_cons.2 ⟨fun y hy a => ?_, h.disjoint⟩
    -- where a later cube holds, so does what this round has left
    cases hlater : Literal.allHold y.literals a with
    | false => exact Bool.and_false _
    | true =>
      have hleft : l.holds a q = true := by
        rw [h.total]
        exact List.any_eq_true.2 ⟨y, hy, hlater⟩
      rw [hx.rest.meaning, Bool.and_eq_true, Bool.not_eq_true'] at hleft
      rw [hleft.2, Bool.false_and]
  total a := by
    rw [List.any_cons, ← h.total, hx.rest.meaning]
    cases hown : Literal.allHold x.literals a with
    | false => simp
    | true => simp [hx.path.sound a hown]

theorem pathsUpTo_grows (limit : Nat) : ∀ r, Step.Grows (pathsUpTo r limit) := by
  induction limit with
  | zero => exact fun r => Step.Grows.pure _
  | succ limit ih =>
    intro r
    refine (Step.Grows.query _).bind fun found => ?_
    cases found with
    | none => exact Step.Grows.pure _
    | some ls =>
      exact (block_grows r ls).bind fun q => (ih q).bind fun _ => Step.Grows.pure _

/-- There is an end to the rounds, and they cover the function.  By induction on a bound for the
number of paths, which falls in every round. -/
theorem exists_exhausts (wf : m.WellFormed) (hnarrow : m.Narrow) (hr : m.Has r) {limit : Nat}
    (hlimit : m.pathCount r ≤ limit) (hfit : ((pathsUpTo r limit).perform m).2.Addressable) :
    ∃ rounds t, Exhausts m r rounds t ∧ m.Covers r rounds t ∧ rounds.length ≤ limit := by
  induction limit generalizing m r with
  | zero =>
    obtain rfl := (pathCount_eq_zero_iff wf hnarrow hr).1 (Nat.le_zero.1 hlimit)
    exact ⟨[], m, .done (if_pos rfl), covers_zero wf, Nat.le_refl 0⟩
  | succ limit ih =>
    rcases path_eq_ok wf hnarrow hr with ⟨rfl, hnone⟩ | ⟨ls, hpath, hfollows⟩
    · exact ⟨[], m, .done hnone, covers_zero wf, Nat.zero_le _⟩
    · rw [perform_pathsUpTo_succ hpath] at hfit
      have hreturn : ∀ found, Step.Grows (pure (ls :: found) : Step Manager _) :=
        fun found => Step.Grows.pure _
      have hlater : ∀ q, Step.Grows (do return ls :: (← pathsUpTo q limit)) :=
        fun q => (pathsUpTo_grows limit q).bind hreturn
      obtain ⟨cube, k, q, l, hcube, hrest, hblock, hremoves⟩ :=
        exists_round wf hnarrow hr hfollows (Step.addressable_of_bind hlater hfit)
      rw [Step.perform_bind, hblock] at hfit
      have hfitRest : ((pathsUpTo q limit).perform l).2.Addressable :=
        Step.addressable_of_bind hreturn hfit
      have hfewer : l.pathCount q < m.pathCount r := hremoves.fewer
      obtain ⟨rounds, t, hrounds, hcovers, hle⟩ :=
        ih hremoves.wf hremoves.narrow hremoves.rest.has (by omega) hfitRest
      exact ⟨⟨ls, cube⟩ :: rounds, t, .round hpath hcube hrest hrounds, hcovers.round hremoves,
        Nat.succ_le_succ hle⟩

/-! ### What the cubes are -/

section Cubes

variable {rounds : List Round}

theorem Covers.holds_cube (h : m.Covers r rounds t) {x : Round} (hx : x ∈ rounds)
    (a : Nat → Bool) : t.holds a x.cube = Literal.allHold x.literals a :=
  (h.cube x hx).meaning a

/-- The function holds where some cube does. -/
theorem Covers.holds_eq (h : m.Covers r rounds t) (a : Nat → Bool) :
    m.holds a r = rounds.any fun x => t.holds a x.cube := by
  rw [h.total, Bool.eq_iff_iff, List.any_eq_true, List.any_eq_true]
  exact exists_congr fun x => and_congr_right fun hx => by rw [h.holds_cube hx]

/-- No two cubes meet, and their conjunction is the constant false. -/
theorem Covers.conj_cubes (h : m.Covers r rounds t) :
    rounds.Pairwise fun x y => (∀ a, (t.holds a x.cube && t.holds a y.cube) = false) ∧
      Step.Yields (conj x.cube y.cube) t fun q _ => q = .zero := by
  refine h.disjoint.imp_of_mem fun {x y} hx hy hdisjoint => ?_
  have hmeets : ∀ a, (t.holds a x.cube && t.holds a y.cube) = false := fun a => by
    rw [h.holds_cube hx, h.holds_cube hy, hdisjoint]
  exact ⟨hmeets, conj_yields_zero h.wf (h.cube x hx).has (h.cube y hy).has hmeets⟩

/-- The disjunction of the cubes is the function. -/
theorem Covers.disjAll_cubes (h : m.Covers r rounds t) (wf : m.WellFormed) (hr : m.Has r) :
    Step.Yields (disjAll (rounds.map Round.cube)) t fun q _ => q = r := by
  have hhas : ∀ c ∈ rounds.map Round.cube, t.Has c :=
    List.forall_mem_map.2 fun x hx => (h.cube x hx).has
  refine disjAll_yields_eq h.wf hhas (hr.mono h.grown) fun a => ?_
  rw [List.any_map, holds_of_extends wf h.grown a hr, h.holds_eq]
  rfl

end Cubes

/-! ### Paths in every store -/

/-- There is no path exactly if the function is never true. -/
theorem path_eq_none_iff (wf : m.WellFormed) (hnarrow : m.Narrow) (hr : m.Has r) :
    m.path r = .ok none ↔ ∀ a, m.holds a r = false := by
  rw [← eq_zero_iff wf hr]
  rcases path_eq_ok wf hnarrow hr with ⟨hzero, hnone⟩ | ⟨ls, hpath, hfollows⟩
  · exact ⟨fun _ => hzero, fun _ => hnone⟩
  · constructor
    · intro hnone
      rw [hpath] at hnone
      cases hnone
    · intro hzero
      rw [path, if_pos hzero] at hpath
      cases hpath

/-- Where the function is true for some values there is a path, and the function is true wherever
its literals hold. -/
theorem exists_path (wf : m.WellFormed) (hnarrow : m.Narrow) (hr : m.Has r) {a : Nat → Bool}
    (ha : m.holds a r = true) : ∃ ls, m.path r = .ok (some ls) ∧
      (ls.Pairwise fun l k => l.var < k.var) ∧
      ∀ a, Literal.allHold ls a → m.holds a r = true := by
  rcases path_spec wf hnarrow hr with ⟨rfl, -⟩ | ⟨ls, hpath, hleads⟩
  · rw [holds_zero] at ha
    cases ha
  · exact ⟨ls, hpath, hleads.ascending, hleads.sound⟩

/-- In every store that orderly requests lead to and whose variables fit the literals, there is no
path exactly if the function is never true; otherwise the path that is found has growing variables,
and wherever its literals hold, so does the function.  Taking away the cube of a path, and doing the
same with what is left, comes to an end, and the cubes are disjoint and together the function that
it began with: no two of them have a conjunction but the constant false, and their disjunction is
the same reference. -/
theorem paths_exact (h : m.Reached) (hfit : m.Addressable) (hnarrow : m.Narrow) (hr : m.Has r) :
    (m.path r = .ok none ↔ ∀ a, m.holds a r = false) ∧
    ((∃ a, m.holds a r = true) → ∃ ls, m.path r = .ok (some ls) ∧
      (ls.Pairwise fun l k => l.var < k.var) ∧
      ∀ a, Literal.allHold ls a → m.holds a r = true) ∧
    (((paths r).perform m).2.Addressable → ∃ rounds t, Exhausts m r rounds t ∧
      (paths r).perform m = (.ok (rounds.map Round.literals), t) ∧
      (∀ x ∈ rounds, (x.literals.Pairwise fun l k => l.var < k.var) ∧
        ∀ a, t.holds a x.cube = Literal.allHold x.literals a) ∧
      (rounds.Pairwise fun x y => (∀ a, (t.holds a x.cube && t.holds a y.cube) = false) ∧
        Step.Yields (conj x.cube y.cube) t fun q _ => q = .zero) ∧
      (∀ a, m.holds a r = rounds.any fun x => t.holds a x.cube) ∧
      Step.Yields (disjAll (rounds.map Round.cube)) t fun q _ => q = r) := by
  have wf := h.wellFormed hfit
  refine ⟨path_eq_none_iff wf hnarrow hr, ?_, fun hpaths => ?_⟩
  · rintro ⟨a, ha⟩
    exact exists_path wf hnarrow hr ha
  · have hlimit : m.pathCount r ≤ 1 <<< r.height := by
      rw [Nat.one_shiftLeft]
      exact pathCount_le_two_pow wf hr
    obtain ⟨rounds, t, hrounds, hcovers, hle⟩ := exists_exhausts wf hnarrow hr hlimit hpaths
    exact ⟨rounds, t, hrounds, hrounds.perform_pathsUpTo hle,
      fun x hx => ⟨hcovers.ascending x hx, hcovers.holds_cube hx⟩, hcovers.conj_cubes,
      hcovers.holds_eq, hcovers.disjAll_cubes wf hr⟩

/-- The exclusive disjunction of two variables has one path along the first one, and what is left of
it has one path along the second one. -/
theorem paths_exact_xor :
    ∃ (m : Manager) (first : List Literal) (rounds : List Round) (t : Manager), m.Reached ∧
      m.Narrow ∧ m.path ⟨4, true⟩ = .ok (some first) ∧ Exhausts m ⟨4, true⟩ rounds t ∧
      rounds.map Round.literals = [[⟨1⟩, ⟨-2⟩], [⟨-1⟩, ⟨2⟩]] ∧
      ∀ a, m.holds a ⟨4, true⟩ = rounds.any fun x => t.holds a x.cube := by
  obtain ⟨m, hcreate⟩ := exists_create (Nat.zero_le 24) .closed
  obtain rfl := eq_of_create hcreate
  have hreached := (((Reached.create hcreate).serve (q := .var 1) (by decide +kernel)).serve
    (q := .var 2) (by decide +kernel)).serve (q := .choice ⟨⟨2, false⟩, ⟨3, true⟩, ⟨3, false⟩⟩)
    (by decide +kernel)
  obtain ⟨hnone, hsome, hall⟩ := paths_exact (r := ⟨4, true⟩) hreached
    (show Addressable _ by decide +kernel) (by decide +kernel) (by decide +kernel)
  obtain ⟨first, hfirst, -⟩ := hsome ⟨fun v => v == 1, by cbv⟩
  obtain ⟨rounds, t, hrounds, hperform, -, -, htotal, -⟩ := hall
    (of_decide_eq_true (by cbv))
  have hanswers : some (rounds.map Round.literals) = some [[⟨1⟩, ⟨-2⟩], [⟨-1⟩, ⟨2⟩]] := by
    refine (congrArg (fun run => run.1.toOption) hperform).symm.trans ?_
    cbv
  exact ⟨_, first, rounds, t, hreached, by decide +kernel, hfirst, hrounds,
    Option.some.inj hanswers, htotal⟩

end BrakeCheck.Manager
