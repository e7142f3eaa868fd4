import BrakeCheck.Proofs.Retrace
import Mathlib.Logic.Function.Basic

/-!
# A function has one reference

In a well-formed store two references that stand for the same function are equal, so that
comparing references compares functions.  Whoever makes a function that is stored is therefore given
the reference that there is, also if it has never been asked for in this way.

## Main definitions

* `Manager.UniqueBelow` — references up to a height are equal if their functions are.

## Main statements

* `Manager.eq_of_holds_eq` — references to the same function are equal.
* `Manager.Denotes.yields_eq` — whoever makes a function again is given the reference it has.
* `Manager.below_of_independent` — a reference branches on no variable that its function ignores.
-/

namespace BrakeCheck.Manager

variable {m : Manager}

/-! ### The variables that a function depends on -/

/-- The value of a reference below a variable depends on later variables alone. -/
theorem holds_congr_of_below (wf : m.WellFormed) {v : Nat} {a b : Nat → Bool}
    (hab : ∀ x, v < x → a x = b x) {r : Ref} (hr : m.Has r) (hbelow : m.Below v r) :
    m.holds a r = m.holds b r := by
  induction hk : r.height using Nat.strongRecOn generalizing r with
  | _ k ih =>
    subst hk
    by_cases hterminal : r.index = Ref.terminal
    · rcases (eq_constant_iff r).2 hterminal with rfl | rfl
      · rw [holds_zero, holds_zero]
      · rw [holds_one, holds_one]
    · obtain ⟨n, hn⟩ := Option.isSome_iff_exists.1 hr
      obtain ⟨hedges, hlow, hhigh⟩ := Cofactors.edges wf hterminal hn
      have hv : v < n.var := hbelow n hterminal hn
      -- both edges lead below the own variable, which is later than `v`
      have hlowEq := ih _ hlow hedges.branch.has_low
        (hedges.branch.below_low.of_le (Nat.le_of_lt hv)) rfl
      have hhighEq := ih _ hhigh hedges.branch.has_high
        (hedges.branch.below_high.of_le (Nat.le_of_lt hv)) rfl
      rw [hedges.meaning, hedges.meaning, hab n.var hv, hlowEq, hhighEq]

theorem chooses_congr_of_allBelow (wf : m.WellFormed) {v : Nat} {a b : Nat → Bool}
    (hab : ∀ x, v < x → a x = b x) {c : Choice} (hall : m.HasAll c) (hbelow : m.AllBelow v c) :
    m.chooses a c = m.chooses b c := by
  unfold chooses
  rw [holds_congr_of_below wf hab hall.test hbelow.test,
    holds_congr_of_below wf hab hall.yes hbelow.yes, holds_congr_of_below wf hab hall.no hbelow.no]

/-- The low edge is the function where the variable is false. -/
theorem CanBranch.holds_low (wf : m.WellFormed) {v : Nat} {low high r : Ref}
    (h : m.CanBranch v low high)
    (hr : ∀ a, m.holds a r = bif a v then m.holds a high else m.holds a low) (a : Nat → Bool) :
    m.holds a low = m.holds (Function.update a v false) r := by
  rw [hr, Function.update_self, cond_false]
  refine holds_congr_of_below wf (fun x hx => ?_) h.has_low h.below_low
  rw [Function.update_of_ne (by omega)]

/-- The high edge is the function where the variable is true. -/
theorem CanBranch.holds_high (wf : m.WellFormed) {v : Nat} {low high r : Ref}
    (h : m.CanBranch v low high)
    (hr : ∀ a, m.holds a r = bif a v then m.holds a high else m.holds a low) (a : Nat → Bool) :
    m.holds a high = m.holds (Function.update a v true) r := by
  rw [hr, Function.update_self, cond_true]
  refine holds_congr_of_below wf (fun x hx => ?_) h.has_high h.below_high
  rw [Function.update_of_ne (by omega)]

/-- A reference below a variable does not depend on it. -/
theorem holds_update_of_below (wf : m.WellFormed) {v : Nat} {r : Ref} (hr : m.Has r)
    (hbelow : m.Below v r) (a : Nat → Bool) (value : Bool) :
    m.holds (Function.update a v value) r = m.holds a r := by
  refine holds_congr_of_below wf (fun x hx => ?_) hr hbelow
  rw [Function.update_of_ne (by omega)]

/-- A sign and a node can be read off the edges under the sign, since the high edge of a node is
regular. -/
theorem eq_of_edges_eq {sign sign' : Bool} {n d : Node} (hn : n.high.negated = false)
    (hd : d.high.negated = false) (hvar : n.var = d.var)
    (hlow : n.low.flipIf sign = d.low.flipIf sign')
    (hhigh : n.high.flipIf sign = d.high.flipIf sign') : sign = sign' ∧ n = d := by
  have negated_flipIf : ∀ (q : Ref) (flip : Bool), q.negated = false →
      (q.flipIf flip).negated = flip := by
    intro q flip hq
    cases flip with
    | false => exact hq
    | true =>
      show (-q).negated = true
      rw [Ref.neg_negated, hq]
      rfl
  have hsign : sign = sign' := by
    rw [← negated_flipIf n.high sign hn, hhigh, negated_flipIf d.high sign' hd]
  subst hsign
  obtain ⟨v, low, high⟩ := n
  obtain ⟨u, low', high'⟩ := d
  dsimp only at hvar hlow hhigh
  rw [hvar, Ref.flipIf_inj.1 hlow, Ref.flipIf_inj.1 hhigh]
  exact ⟨rfl, rfl⟩

/-! ### One reference for each function -/

/-- References lower than `k` are equal as soon as they stand for the same function. -/
def UniqueBelow (m : Manager) (k : Nat) : Prop :=
  ∀ p q : Ref, m.Has p → m.Has q → p.height < k → q.height < k →
    (∀ a, m.holds a p = m.holds a q) → p = q

theorem UniqueBelow.mono {j k : Nat} (h : m.UniqueBelow k) (hjk : j ≤ k) : m.UniqueBelow j :=
  fun p q hp hq hpj hqj => h p q hp hq (Nat.lt_of_lt_of_le hpj hjk) (Nat.lt_of_lt_of_le hqj hjk)

/-- A node depends on its own variable. -/
theorem UniqueBelow.depends (wf : m.WellFormed) {r : Ref} (hunique : m.UniqueBelow r.height)
    {n : Node} (hterminal : r.index ≠ Ref.terminal) (hn : m.nodes.value? r.index = some n) :
    ¬ ∀ a, m.holds (Function.update a n.var false) r =
      m.holds (Function.update a n.var true) r := by
  intro h
  obtain ⟨hedges, hlow, hhigh⟩ := Cofactors.edges wf hterminal hn
  refine edges_ne wf hterminal hn (hunique _ _ hedges.branch.has_low hedges.branch.has_high hlow
    hhigh fun a => ?_)
  rw [hedges.branch.holds_low wf hedges.meaning, hedges.branch.holds_high wf hedges.meaning, h]

/-- So no reference below its variable stands for the same function. -/
theorem UniqueBelow.ne_of_below (wf : m.WellFormed) {r s : Ref} (hunique : m.UniqueBelow r.height)
    {n : Node} (hterminal : r.index ≠ Ref.terminal) (hn : m.nodes.value? r.index = some n)
    (hs : m.Has s) (hbelow : m.Below n.var s) : ¬ ∀ a, m.holds a r = m.holds a s := by
  intro h
  refine hunique.depends wf hterminal hn fun a => ?_
  rw [h, h, holds_update_of_below wf hs hbelow, holds_update_of_below wf hs hbelow]

/-- References that branch on the same variable and stand for the same function have the same
edges. -/
theorem UniqueBelow.eq_of_same_var (wf : m.WellFormed) {k : Nat} (hunique : m.UniqueBelow k)
    {r s : Ref} (hr : r.height ≤ k) (hs : s.height ≤ k) {n d : Node}
    (hrt : r.index ≠ Ref.terminal) (hst : s.index ≠ Ref.terminal)
    (hn : m.nodes.value? r.index = some n) (hd : m.nodes.value? s.index = some d)
    (hvar : n.var = d.var) (h : ∀ a, m.holds a r = m.holds a s) : r = s := by
  obtain ⟨hredges, hrlow, hrhigh⟩ := Cofactors.edges wf hrt hn
  obtain ⟨hsedges, hslow, hshigh⟩ := Cofactors.edges wf hst hd
  have hlow : n.low.flipIf r.negated = d.low.flipIf s.negated := by
    refine hunique _ _ hredges.branch.has_low hsedges.branch.has_low (by omega) (by omega)
      fun a => ?_
    rw [hredges.branch.holds_low wf hredges.meaning, hsedges.branch.holds_low wf hsedges.meaning,
      hvar, h]
  have hhigh : n.high.flipIf r.negated = d.high.flipIf s.negated := by
    refine hunique _ _ hredges.branch.has_high hsedges.branch.has_high (by omega) (by omega)
      fun a => ?_
    rw [hredges.branch.holds_high wf hredges.meaning, hsedges.branch.holds_high wf hsedges.meaning,
      hvar, h]
  obtain ⟨hsign, hnode⟩ := eq_of_edges_eq (wf.fits _ n hrt hn).high_regular
    (wf.fits _ d hst hd).high_regular hvar hlow hhigh
  have hindex : r.index = s.index := by
    rw [← hnode] at hd
    exact wf.distinct hn hd
  obtain ⟨i, sign⟩ := r
  obtain ⟨j, sign'⟩ := s
  dsimp only at hsign hindex
  rw [hsign, hindex]

/-- Two constants with the same value are equal. -/
theorem eq_of_constant {r s : Ref} (hr : r.index = Ref.terminal) (hs : s.index = Ref.terminal)
    (h : ∀ a, m.holds a r = m.holds a s) : r = s := by
  have hvalue := h fun _ => false
  rcases (eq_constant_iff r).2 hr with rfl | rfl
  · rcases (eq_constant_iff s).2 hs with rfl | rfl
    · rfl
    · rw [holds_zero, holds_one] at hvalue
      cases hvalue
  · rcases (eq_constant_iff s).2 hs with rfl | rfl
    · rw [holds_zero, holds_one] at hvalue
      cases hvalue
    · rfl

/-- By induction on the height: where only one of two references branches on the topmost variable,
only that one depends on it, and where both do, their edges stand for the same functions. -/
theorem uniqueBelow (wf : m.WellFormed) (k : Nat) : m.UniqueBelow k := by
  induction k with
  | zero => exact fun p q _ _ hp => absurd hp (Nat.not_lt_zero _)
  | succ k ih =>
    intro r s hr hs hrk hsk h
    have hrle := Nat.le_of_lt_succ hrk
    have hsle := Nat.le_of_lt_succ hsk
    obtain ⟨n, hn⟩ := Option.isSome_iff_exists.1 hr
    obtain ⟨d, hd⟩ := Option.isSome_iff_exists.1 hs
    have below_of_lt : ∀ {q : Ref} {e : Node} {v : Nat}, m.nodes.value? q.index = some e →
        v < e.var → m.Below v q := by
      intro q e v he hv e' _ he'
      rw [he, Option.some.injEq] at he'
      rwa [← he']
    have hsymm : ∀ a, m.holds a s = m.holds a r := fun a => (h a).symm
    by_cases hrt : r.index = Ref.terminal
    · by_cases hst : s.index = Ref.terminal
      · exact eq_of_constant hrt hst h
      · have hbelow : m.Below d.var r := fun _ hne => absurd hrt hne
        exact absurd hsymm ((ih.mono hsle).ne_of_below wf hst hd hr hbelow)
    · by_cases hst : s.index = Ref.terminal
      · have hbelow : m.Below n.var s := fun _ hne => absurd hst hne
        exact absurd h ((ih.mono hrle).ne_of_below wf hrt hn hs hbelow)
      · rcases Nat.lt_trichotomy n.var d.var with hlt | heq | hlt
        · exact absurd h ((ih.mono hrle).ne_of_below wf hrt hn hs (below_of_lt hd hlt))
        · exact ih.eq_of_same_var wf hrle hsle hrt hst hn hd heq h
        · exact absurd hsymm ((ih.mono hsle).ne_of_below wf hst hd hr (below_of_lt hn hlt))

/-- References to the same function are equal. -/
theorem eq_of_holds_eq (wf : m.WellFormed) {r s : Ref} (hr : m.Has r) (hs : m.Has s)
    (h : ∀ a, m.holds a r = m.holds a s) : r = s :=
  uniqueBelow wf (max r.height s.height + 1) r s hr hs
    (Nat.lt_succ_of_le (Nat.le_max_left _ _)) (Nat.lt_succ_of_le (Nat.le_max_right _ _)) h

/-- A reference is the constant false exactly if its function is never true. -/
theorem eq_zero_iff (wf : m.WellFormed) {r : Ref} (hr : m.Has r) :
    r = .zero ↔ ∀ a, m.holds a r = false := by
  constructor
  · rintro rfl a
    exact holds_zero m a
  · exact fun h => eq_of_holds_eq wf hr wf.has_zero fun a => by rw [h, holds_zero]

/-- A reference is the constant true exactly if its function is always true. -/
theorem eq_one_iff (wf : m.WellFormed) {r : Ref} (hr : m.Has r) :
    r = .one ↔ ∀ a, m.holds a r = true := by
  constructor
  · rintro rfl a
    exact holds_one m a
  · exact fun h => eq_of_holds_eq wf hr wf.has_one fun a => by rw [h, holds_one]

/-! ### Functions that have been made -/

/-- A function has one reference. -/
theorem Denotes.unique (wf : m.WellFormed) {r s : Ref} {f : (Nat → Bool) → Bool}
    (hr : m.Denotes r f) (hs : m.Denotes s f) : r = s :=
  eq_of_holds_eq wf hr.has hs.has fun a => by rw [hr.meaning, hs.meaning]

/-- Whoever makes a function that has been made before is given the reference that it has. -/
theorem Denotes.yields_eq {old : Manager} (wf : old.WellFormed) (hext : m.Extends old) {r : Ref}
    {f : (Nat → Bool) → Bool} (hr : old.Denotes r f) {step : Step Manager Ref}
    (h : Step.Yields step m fun q t => t.WellFormed ∧ t.Denotes q f) :
    Step.Yields step m fun q _ => q = r := by
  exact h.imp fun q t ht ⟨wft, hq⟩ => hq.unique wft (hr.mono wf (Extends.trans ht hext))

/-- The conjunction of functions that are nowhere true together. -/
theorem conj_yields_zero (wf : m.WellFormed) {r q : Ref} (hr : m.Has r) (hq : m.Has q)
    (h : ∀ a, (m.holds a r && m.holds a q) = false) :
    Step.Yields (conj r q) m fun p _ => p = .zero := by
  have hzero : m.Denotes .zero fun a => m.holds a r && m.holds a q :=
    ⟨wf.has_zero, fun a => by rw [holds_zero, h]⟩
  exact hzero.yields_eq wf (Extends.refl m) (conj_spec wf hr hq)

/-- The disjunction of functions that together are one that has been made. -/
theorem disjAll_yields_eq (wf : m.WellFormed) {rs : List Ref} (hrs : ∀ q ∈ rs, m.Has q) {r : Ref}
    (hr : m.Has r) (h : ∀ a, m.holds a r = rs.any fun q => m.holds a q) :
    Step.Yields (disjAll rs) m fun q _ => q = r :=
  Denotes.yields_eq wf (Extends.refl m) ⟨hr, h⟩ (disjAll_spec wf hrs)

/-! ### References stand as low as their functions -/

/-- A reference branches on no variable that its function ignores together with all earlier
ones. -/
theorem below_of_independent (wf : m.WellFormed) {r : Ref} {v : Nat}
    (h : ∀ a b : Nat → Bool, (∀ x, v < x → a x = b x) → m.holds a r = m.holds b r) :
    m.Below v r := by
  intro n hterminal hn
  by_contra hle
  refine (uniqueBelow wf r.height).depends wf hterminal hn fun a => h _ _ fun x hx => ?_
  rw [Function.update_of_ne (by omega), Function.update_of_ne (by omega)]

/-- A function that is one function where `v` holds and another one elsewhere depends on no earlier
variable. -/
theorem CanBranch.holds_congr (wf : m.WellFormed) {v : Nat} {low high r : Ref}
    (h : m.CanBranch v low high)
    (hmeaning : ∀ a, m.holds a r = bif a v then m.holds a high else m.holds a low)
    {a b : Nat → Bool} (hab : ∀ x, v ≤ x → a x = b x) : m.holds a r = m.holds b r := by
  have hlater : ∀ x, v < x → a x = b x := fun x hx => hab x (Nat.le_of_lt hx)
  rw [hmeaning, hmeaning, hab v (Nat.le_refl v),
    holds_congr_of_below wf hlater h.has_high h.below_high,
    holds_congr_of_below wf hlater h.has_low h.below_low]

/-- The cofactors of a function that depends on no variable above `v`. -/
theorem exists_cofactors (wf : m.WellFormed) {v : Nat} (hv : 0 < v) {r : Ref} (hr : m.Has r)
    (h : ∀ a b : Nat → Bool, (∀ x, v ≤ x → a x = b x) → m.holds a r = m.holds b r) :
    ∃ low high, m.Cofactors v r low high := by
  obtain ⟨n, hn⟩ := Option.isSome_iff_exists.1 hr
  have hbelow : m.Below (v - 1) r := below_of_independent wf fun a b hab =>
    h a b fun x hx => hab x (by omega)
  have htop : r.index ≠ Ref.terminal → v ≤ n.var := fun hterminal =>
    Nat.le_of_pred_lt (hbelow n hterminal hn)
  obtain ⟨low, high, -, hcofactors, -⟩ := cofactors_spec wf hv hn htop
  exact ⟨low, high, hcofactors⟩

/-- A reference with the value that a choice describes is its result. -/
theorem answers_of_meaning (wf : m.WellFormed) {c : Choice} (hall : m.HasAll c) {r : Ref}
    (hr : m.Has r) (h : ∀ a, m.holds a r = m.chooses a c) : m.Answers c r where
  has := hr
  below v hv := below_of_independent wf fun a b hab => by
    rw [h, h, chooses_congr_of_allBelow wf hab hall hv]
  meaning := h

/-! ### The edges of a function -/

/-- The node of a function that is one function where a variable holds and another one elsewhere
branches on this variable, and its edges are these functions. -/
theorem CanBranch.edges_eq (wf : m.WellFormed) {v : Nat} {low high r : Ref}
    (h : m.CanBranch v low high) (hne : low ≠ high) (hr : m.Has r)
    (hmeaning : ∀ a, m.holds a r = bif a v then m.holds a high else m.holds a low) :
    ∃ n, r.index ≠ Ref.terminal ∧ m.nodes.value? r.index = some n ∧ n.var = v ∧
      n.low.flipIf r.negated = low ∧ n.high.flipIf r.negated = high := by
  have depends : ¬ ∀ a, m.holds (Function.update a v false) r =
      m.holds (Function.update a v true) r := by
    intro heq
    refine hne (eq_of_holds_eq wf h.has_low h.has_high fun a => ?_)
    rw [h.holds_low wf hmeaning, h.holds_high wf hmeaning, heq]
  have not_below : ¬ m.Below v r := fun hbelow => depends fun a => by
    rw [holds_update_of_below wf hr hbelow, holds_update_of_below wf hr hbelow]
  obtain ⟨n, hn⟩ := Option.isSome_iff_exists.1 hr
  have hterminal : r.index ≠ Ref.terminal := fun hterminal =>
    not_below fun _ hne => absurd hterminal hne
  -- earlier variables make no difference, so the node branches on `v` or a later one
  have hle : v ≤ n.var := by
    have hv := h.var_pos
    have hbelow : m.Below (v - 1) r := below_of_independent wf fun a b hab =>
      h.holds_congr wf hmeaning fun x hx => hab x (by omega)
    have hlt := hbelow n hterminal hn
    omega
  have hvar : n.var = v := by
    refine Nat.le_antisymm (Nat.le_of_not_lt fun hlt => not_below fun d _ hd => ?_) hle
    rw [hn, Option.some.injEq] at hd
    rwa [← hd]
  obtain ⟨hedges, -, -⟩ := Cofactors.edges wf hterminal hn
  refine ⟨n, hterminal, hn, hvar, ?_, ?_⟩
  · refine eq_of_holds_eq wf hedges.branch.has_low h.has_low fun a => ?_
    rw [hedges.branch.holds_low wf hedges.meaning, h.holds_low wf hmeaning, hvar]
  · refine eq_of_holds_eq wf hedges.branch.has_high h.has_high fun a => ?_
    rw [hedges.branch.holds_high wf hedges.meaning, h.holds_high wf hmeaning, hvar]

/-- References to one function, in whatever stores, branch on the same variable, and their edges are
the same functions. -/
theorem edges_congr {t : Manager} (wf : m.WellFormed) (wft : t.WellFormed) {r q : Ref} {n : Node}
    (hterminal : r.index ≠ Ref.terminal) (hn : m.nodes.value? r.index = some n) (hq : t.Has q)
    (h : ∀ a, t.holds a q = m.holds a r) :
    ∃ d, q.index ≠ Ref.terminal ∧ t.nodes.value? q.index = some d ∧ d.var = n.var ∧
      (∀ a, t.holds a (d.low.flipIf q.negated) = m.holds a (n.low.flipIf r.negated)) ∧
      ∀ a, t.holds a (d.high.flipIf q.negated) = m.holds a (n.high.flipIf r.negated) := by
  obtain ⟨hedges, -, -⟩ := Cofactors.edges wf hterminal hn
  obtain ⟨low, high, hcofactors⟩ := exists_cofactors wft hedges.branch.var_pos hq fun a b hab => by
    rw [h, h]
    exact hedges.branch.holds_congr wf hedges.meaning hab
  have hlow : ∀ a, t.holds a low = m.holds a (n.low.flipIf r.negated) := fun a => by
    rw [hcofactors.branch.holds_low wft hcofactors.meaning,
      hedges.branch.holds_low wf hedges.meaning, h]
  have hhigh : ∀ a, t.holds a high = m.holds a (n.high.flipIf r.negated) := fun a => by
    rw [hcofactors.branch.holds_high wft hcofactors.meaning,
      hedges.branch.holds_high wf hedges.meaning, h]
  -- the cofactors differ, as the edges do
  have hne : low ≠ high := by
    rintro rfl
    exact edges_ne wf hterminal hn (eq_of_holds_eq wf hedges.branch.has_low hedges.branch.has_high
      fun a => by rw [← hlow, ← hhigh])
  obtain ⟨d, hterminal', hd, hvar, rfl, rfl⟩ :=
    hcofactors.branch.edges_eq wft hne hq hcofactors.meaning
  exact ⟨d, hterminal', hd, hvar, hlow, hhigh⟩

end BrakeCheck.Manager
