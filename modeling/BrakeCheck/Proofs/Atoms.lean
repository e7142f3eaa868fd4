import BrakeCheck.Formula.Model
import BrakeCheck.Proofs.Elimination
import BrakeCheck.Proofs.Variables
import BrakeCheck.Skeleton.Encoding
import Mathlib.Data.Fintype.Card

/-!
# The skeleton of a query and its atoms

Values of the symbolic constants decide which atoms are true, and so which functions of the
skeleton are.  A new atom comes with a number that no stored node branches on, so that nothing
that is stored changes its meaning.

## Main definitions

* `AtomTable.truth` — the assignment that makes an atom true where its expression is below zero.
* `Skeleton.holds` — the truth value of a reference when the symbolic constants have given values.
* `Skeleton.WellFormed` — what is true of every skeleton made by the operations.
* `Skeleton.Denotes` — a reference stands for a property of the values.

## Main statements

* `Skeleton.holds_of_extends` — a skeleton that grows keeps the meaning of its references.
* `Skeleton.belowZero_spec`, `Skeleton.relate_spec` — the contracts of comparisons with zero.
* `AtomTable.constraints_spec` — the constraints of a path hold where its literals do.
-/

namespace BrakeCheck

namespace AtomTable

/-- The assignment that makes the atom `x` true exactly where its expression is below zero; what
is no atom is false. -/
def truth (t : AtomTable) (v : String → Rat) (x : Nat) : Bool :=
  match t.atom x with
  | .ok e => e.eval v < 0
  | .error _ => false

/-- The table `t` has all atoms of `old`, under the same numbers. -/
def Extends (t old : AtomTable) : Prop := ∀ x e, old.atom x = .ok e → t.atom x = .ok e

theorem truth_of_atom {t : AtomTable} {x : Nat} {e : LinExpr} (h : t.atom x = .ok e)
    (v : String → Rat) : t.truth v x = decide (e.eval v < 0) := by
  rw [truth, h]

theorem atom_eq_ok_iff {t : AtomTable} {x : Nat} {e : LinExpr} :
    t.atom x = .ok e ↔ 0 < x ∧ t.exprs[x - 1]? = some e := by
  unfold atom
  by_cases hx : x = 0
  · simp [hx]
  · rw [if_neg hx]
    cases t.exprs[x - 1]? with
    | none => simp
    | some d => simp [Nat.pos_of_ne_zero hx]

/-- The atoms are numbered from one to the size of the table. -/
theorem exists_atom {t : AtomTable} {x : Nat} (hpos : 0 < x) (hle : x ≤ t.size) :
    ∃ e, t.atom x = .ok e := by
  have hlt : x - 1 < t.exprs.size := by
    have hsize : t.size = t.exprs.size := rfl
    omega
  exact ⟨t.exprs[x - 1], atom_eq_ok_iff.2 ⟨hpos, Array.getElem?_eq_getElem hlt⟩⟩

theorem le_size_of_atom {t : AtomTable} {x : Nat} {e : LinExpr} (h : t.atom x = .ok e) :
    0 < x ∧ x ≤ t.size := by
  obtain ⟨hpos, hget⟩ := atom_eq_ok_iff.1 h
  obtain ⟨hlt, -⟩ := Array.getElem?_eq_some_iff.1 hget
  have hsize : t.size = t.exprs.size := rfl
  omega

theorem atom_push (t : AtomTable) (d : LinExpr) (x : Nat) :
    (t.push d).atom x = if x = t.size + 1 then .ok d else t.atom x := by
  unfold atom push
  dsimp only
  have hsize : t.size = t.exprs.size := rfl
  by_cases hzero : x = 0
  · have hne : x ≠ t.size + 1 := by omega
    rw [if_pos hzero, if_neg hne, if_pos hzero]
  · rw [if_neg hzero, if_neg hzero, Array.getElem?_push]
    by_cases hx : x = t.size + 1
    · rw [if_pos hx, if_pos (by omega)]
    · rw [if_neg hx, if_neg (by omega)]

/-- The number found for an expression is the first one that it has. -/
theorem find?_eq_some_iff {t : AtomTable} {e : LinExpr} {x : Nat} :
    t.find? e = some x ↔ t.atom x = .ok e ∧ ∀ y d, y < x → t.atom y = .ok d → d ≠ e := by
  unfold find?
  rw [Option.map_eq_some_iff]
  constructor
  · rintro ⟨i, hi, rfl⟩
    obtain ⟨hlt, heq, hfirst⟩ := Array.findIdx?_eq_some_iff_getElem.1 hi
    refine ⟨atom_eq_ok_iff.2 ⟨Nat.succ_pos i, ?_⟩, fun y d hy hd hde => ?_⟩
    · rw [Nat.add_sub_cancel, Array.getElem?_eq_getElem hlt]
      simpa using heq
    · obtain ⟨hpos, hget⟩ := atom_eq_ok_iff.1 hd
      obtain ⟨hlty, rfl⟩ := Array.getElem?_eq_some_iff.1 hget
      exact hfirst (y - 1) (by omega) (by simpa using hde)
  · rintro ⟨hx, hfirst⟩
    obtain ⟨hpos, hget⟩ := atom_eq_ok_iff.1 hx
    obtain ⟨hlt, heq⟩ := Array.getElem?_eq_some_iff.1 hget
    refine ⟨x - 1, Array.findIdx?_eq_some_iff_getElem.2 ⟨hlt, by simpa using heq, ?_⟩,
      Nat.sub_add_cancel hpos⟩
    intro j hj
    have hlater : j < t.exprs.size := Nat.lt_trans hj hlt
    have hatom : t.atom (j + 1) = .ok t.exprs[j] :=
      atom_eq_ok_iff.2 ⟨Nat.succ_pos j, Array.getElem?_eq_getElem hlater⟩
    simpa using hfirst (j + 1) _ (by omega) hatom

theorem atom_of_find? {t : AtomTable} {e : LinExpr} {x : Nat} (h : t.find? e = some x) :
    t.atom x = .ok e := (find?_eq_some_iff.1 h).1

theorem extends_push (t : AtomTable) (d : LinExpr) : (t.push d).Extends t := by
  intro x e h
  have hle := (le_size_of_atom h).2
  rw [atom_push, if_neg (by omega), h]

/-- The number of the atom with an expression, which becomes a new atom if there is none, and the
atoms that there are then. -/
def number (t : AtomTable) (e : LinExpr) : Nat × AtomTable :=
  match t.find? e with
  | some x => (x, t)
  | none => (t.size + 1, t.push e)

theorem atom_number (t : AtomTable) (e : LinExpr) : (t.number e).2.atom (t.number e).1 = .ok e := by
  unfold number
  split
  · next hfind => exact atom_of_find? hfind
  · exact (atom_push t e _).trans (if_pos rfl)

theorem extends_number (t : AtomTable) (e : LinExpr) : (t.number e).2.Extends t := by
  unfold number
  split
  · exact fun _ _ h => h
  · exact t.extends_push e

theorem size_le_number (t : AtomTable) (e : LinExpr) : t.size ≤ (t.number e).2.size := by
  unfold number
  split
  · exact Nat.le_refl _
  · exact Nat.le_trans (Nat.le_succ _) (Nat.le_of_eq (Array.size_push e).symm)

/-- The atoms are the ones before and the one that has been numbered. -/
theorem atom_of_number {t : AtomTable} {e d : LinExpr} {x : Nat}
    (h : (t.number e).2.atom x = .ok d) : d = e ∨ t.atom x = .ok d := by
  unfold number at h
  split at h
  · exact Or.inr h
  · rw [atom_push] at h
    split at h
    · cases h
      exact Or.inl rfl
    · exact Or.inr h

theorem le_size_of_number {t : AtomTable} {e : LinExpr} {x : Nat} (hx : x ≠ (t.number e).1)
    (hle : x ≤ (t.number e).2.size) : x ≤ t.size := by
  unfold number at hx hle
  split at hx
  · next hfind => rwa [hfind] at hle
  · next hfind =>
    have hsize : (t.push e).size = t.size + 1 := Array.size_push e
    rw [hfind] at hle
    dsimp only at hx hle
    omega

/-- What is not found is no atom. -/
theorem ne_of_find?_eq_none {t : AtomTable} {e d : LinExpr} {x : Nat} (h : t.find? e = none)
    (hx : t.atom x = .ok d) : d ≠ e := by
  obtain ⟨hpos, hget⟩ := atom_eq_ok_iff.1 hx
  obtain ⟨hlt, rfl⟩ := Array.getElem?_eq_some_iff.1 hget
  unfold find? at h
  rw [Option.map_eq_none_iff, Array.findIdx?_eq_none_iff] at h
  simpa using h _ (Array.getElem_mem hlt)

/-- An atom that has been numbered is found under its number. -/
theorem find?_number (t : AtomTable) (e : LinExpr) :
    (t.number e).2.find? e = some (t.number e).1 := by
  refine find?_eq_some_iff.2 ⟨t.atom_number e, fun y d hy hd => ?_⟩
  unfold number at hy hd
  split at hy
  · next hfind =>
    rw [hfind] at hd
    exact (find?_eq_some_iff.1 hfind).2 y d hy hd
  · next hfind =>
    rw [hfind] at hd
    dsimp only at hy hd
    rw [atom_push, if_neg (by omega)] at hd
    exact ne_of_find?_eq_none hfind hd

/-- It keeps the number in every larger table, and no atom has to be made for it there. -/
theorem number_of_extends {t u : AtomTable} {e : LinExpr} (h : u.Extends (t.number e).2) :
    u.number e = ((t.number e).1, u) := by
  have hfind : u.find? e = some (t.number e).1 := by
    obtain ⟨hatom, hfirst⟩ := find?_eq_some_iff.1 (t.find?_number e)
    refine find?_eq_some_iff.2 ⟨h _ _ hatom, fun y d hy hd => ?_⟩
    obtain ⟨hpos, -⟩ := le_size_of_atom hd
    obtain ⟨-, hle⟩ := le_size_of_atom hatom
    -- the smaller numbers stand for the same expressions in both tables
    obtain ⟨c, hc⟩ := exists_atom (t := (t.number e).2) hpos (by omega)
    obtain rfl : c = d := Except.ok.inj ((h _ _ hc).symm.trans hd)
    exact hfirst y c hy hc
  rw [number, hfind]

end AtomTable

namespace Skeleton

/-! ### Growing skeletons -/

/-- The skeleton `s` has all nodes and atoms of `old`, under the same numbers. -/
structure Extends (s old : Skeleton) : Prop where
  manager : s.manager.Extends old.manager
  atoms : s.atoms.Extends old.atoms

theorem Extends.refl (s : Skeleton) : s.Extends s := ⟨Manager.Extends.refl _, fun _ _ h => h⟩

theorem Extends.trans {u t s : Skeleton} (hut : u.Extends t) (hts : t.Extends s) : u.Extends s :=
  ⟨Manager.Extends.trans hut.manager hts.manager, fun x e h => hut.atoms x e (hts.atoms x e h)⟩

instance : Growing Skeleton where
  Extends := Extends
  refl := Extends.refl
  trans := Extends.trans
  Addressable s := s.manager.Addressable
  addressable_of_extends h := Manager.Addressable.of_extends h.manager

theorem perform_onManager {α : Type} (step : Step Manager α) (s : Skeleton) :
    (onManager step).perform s =
      ((step.perform s.manager).1, ⟨(step.perform s.manager).2, s.atoms⟩) := rfl

/-- Two computations on the store, one after the other. -/
theorem onManager_bind {α β : Type} (step : Step Manager α) (next : α → Step Manager β) :
    onManager (step >>= next) = onManager step >>= fun a => onManager (next a) := by
  refine funext fun s => ?_
  show (onManager (step >>= next)).perform s =
    (onManager step >>= fun a => onManager (next a)).perform s
  rw [Step.perform_bind, perform_onManager, perform_onManager, Step.perform_bind]
  rcases step.perform s.manager with ⟨_ | a, m⟩
  · rfl
  · rfl

theorem onManager_grows {α : Type} {step : Step Manager α} (h : Step.Grows step) :
    Step.Grows (onManager step) :=
  fun s => ⟨h s.manager, fun _ _ h => h⟩

/-- The truth value of a reference when the symbolic constants have the values `v`. -/
def holds (s : Skeleton) (v : String → Rat) (r : Ref) : Bool :=
  s.manager.holds (s.atoms.truth v) r

/-- What is true of every skeleton made by the operations: its store is well-formed and branches
on atoms alone; the atoms are about names of `N`, and none of them is without any; and the
variable of every atom is stored. -/
structure WellFormed (N : String → Prop) (s : Skeleton) : Prop where
  manager : s.manager.WellFormed
  within : s.manager.Within s.atoms.size
  reduced : ∀ x e, s.atoms.atom x = .ok e → e.Reduced
  names : ∀ x e, s.atoms.atom x = .ok e → ∀ y ∈ e.vars, N y
  stored : ∀ x, 0 < x → x ≤ s.atoms.size →
    ∃ i, s.manager.nodes.value? i = some ⟨x, .zero, .one⟩

/-- A reference is stored, and stands for a property of the values. -/
structure Denotes (s : Skeleton) (r : Ref) (f : (String → Rat) → Bool) : Prop where
  has : s.manager.Has r
  meaning : ∀ v, s.holds v r = f v

variable {N : String → Prop} {s t : Skeleton}

theorem WellFormed.mono {M : String → Prop} (wf : s.WellFormed N) (h : ∀ x, N x → M x) :
    s.WellFormed M :=
  { wf with names := fun x e hx y hy => h y (wf.names x e hx y hy) }

/-- A skeleton that grows keeps the meaning of its references. -/
theorem holds_of_extends (wf : s.WellFormed N) (hext : t.Extends s) (v : String → Rat) {r : Ref}
    (hr : s.manager.Has r) : t.holds v r = s.holds v r := by
  unfold holds
  rw [Manager.holds_of_extends wf.manager hext.manager _ hr]
  refine Manager.holds_congr_of_within wf.manager wf.within (fun x hpos hle => ?_) hr
  obtain ⟨e, he⟩ := AtomTable.exists_atom hpos hle
  rw [AtomTable.truth_of_atom he, AtomTable.truth_of_atom (hext.atoms x e he)]

theorem Denotes.mono (wf : s.WellFormed N) (hext : t.Extends s) {r : Ref}
    {f : (String → Rat) → Bool} (h : s.Denotes r f) : t.Denotes r f :=
  ⟨h.has.mono hext.manager, fun v => by rw [holds_of_extends wf hext v h.has, h.meaning]⟩

theorem Denotes.congr {r : Ref} {f g : (String → Rat) → Bool} (h : s.Denotes r f)
    (hfg : ∀ v, f v = g v) : s.Denotes r g :=
  ⟨h.has, fun v => by rw [h.meaning, hfg]⟩

theorem Denotes.neg {r : Ref} {f : (String → Rat) → Bool} (h : s.Denotes r f) :
    s.Denotes (-r) fun v => !f v :=
  ⟨h.has, fun v => by rw [holds, Manager.holds_neg, ← h.meaning]; rfl⟩

theorem WellFormed.denotes_one (wf : s.WellFormed N) : s.Denotes .one fun _ => true :=
  ⟨wf.manager.has_one, fun _ => Manager.holds_one _ _⟩

theorem WellFormed.denotes_zero (wf : s.WellFormed N) : s.Denotes .zero fun _ => false :=
  ⟨wf.manager.has_zero, fun _ => Manager.holds_zero _ _⟩

/-! ### The number of atoms -/

/-- There are no more atoms than nodes, because every atom has a node of its own. -/
theorem WellFormed.atoms_le (wf : s.WellFormed N) : s.atoms.size ≤ s.manager.nodes.size := by
  have hnode : ∀ x : Fin s.atoms.size, ∃ i : Fin s.manager.nodes.size,
      s.manager.nodes.value? (i + 1) = some ⟨x + 1, .zero, .one⟩ := by
    intro x
    obtain ⟨i, hi⟩ := wf.stored (x + 1) (Nat.succ_pos _) x.isLt
    obtain ⟨hpos, hle⟩ := HashCons.isSome_value?_iff.1 (Option.isSome_of_eq_some hi)
    refine ⟨⟨i - 1, by omega⟩, ?_⟩
    rw [Nat.sub_add_cancel hpos]
    exact hi
  obtain ⟨index, hindex⟩ := Classical.axiomOfChoice hnode
  have hinjective : Function.Injective index := by
    intro x y hxy
    have heq := hindex x
    rw [hxy, hindex y, Option.some.injEq, Node.mk.injEq] at heq
    exact Fin.ext (Nat.succ.inj heq.1.symm)
  simpa using Fintype.card_le_of_injective index hinjective

theorem varRange_eq : Literal.varRange = Ref.indexRange := by decide

/-- As long as all nodes can be referred to, there are literals for all atoms. -/
theorem WellFormed.narrow (wf : s.WellFormed N) (hfit : s.manager.Addressable) :
    s.manager.Narrow := by
  intro i n hn
  have hle := wf.within i n hn
  have hatoms := wf.atoms_le
  have hsize : s.manager.nodes.size < Ref.indexRange := hfit
  rw [varRange_eq]
  omega

/-! ### Computations on the store -/

/-- A computation on the store that brings in no variable, as a computation on the skeleton: what it
promises of the store is true of the store of the skeleton, and the atoms stay as they are. -/
theorem onManager_yields (wf : s.WellFormed N) {α : Type} {step : Step Manager α}
    (hkeeps : Step.Keeps (Manager.Within s.atoms.size) step) {P : α → Manager → Prop}
    (h : Step.Yields step s.manager fun a m => m.WellFormed ∧ P a m) :
    Step.Yields (onManager step) s fun a t => t.WellFormed N ∧ t.atoms = s.atoms ∧
      P a t.manager := by
  intro hfit
  obtain ⟨a, m, hrun, hext, wfm, ha⟩ := h hfit
  have hwithin := hkeeps s.manager wf.within
  rw [hrun] at hwithin
  refine ⟨a, ⟨m, s.atoms⟩, by rw [perform_onManager, hrun], ⟨hext, fun _ _ h => h⟩, ?_, rfl, ha⟩
  exact {
    manager := wfm
    within := hwithin
    reduced := wf.reduced
    names := wf.names
    stored := fun x hpos hle =>
      let ⟨i, hi⟩ := wf.stored x hpos hle
      ⟨i, hext i _ hi⟩ }

/-- A function of the atoms that the store has made stands for a property of the values. -/
theorem onManager_spec (wf : s.WellFormed N) {step : Step Manager Ref}
    (hkeeps : Step.Keeps (Manager.Within s.atoms.size) step) {f : (Nat → Bool) → Bool}
    (h : Step.Yields step s.manager fun r m => m.WellFormed ∧ m.Denotes r f) :
    Step.Yields (onManager step) s fun r t => t.WellFormed N ∧
      t.Denotes r fun v => f (s.atoms.truth v) := by
  refine (onManager_yields wf hkeeps h).imp fun r t _ ⟨wft, hatoms, hr⟩ =>
    ⟨wft, hr.has, fun v => ?_⟩
  rw [holds, hatoms]
  exact hr.meaning _

section
variable {a b c : Ref} {f g k : (String → Rat) → Bool}

theorem conj_spec (wf : s.WellFormed N) (ha : s.Denotes a f) (hb : s.Denotes b g) :
    Step.Yields (onManager (Manager.conj a b)) s fun r t => t.WellFormed N ∧
      t.Denotes r fun v => f v && g v := by
  refine (onManager_spec wf (Manager.conj_keeps (Manager.kept_within _) a b)
    (Manager.conj_spec wf.manager ha.has hb.has)).imp fun r t _ ⟨wft, hr⟩ =>
      ⟨wft, hr.congr fun v => ?_⟩
  rw [← ha.meaning, ← hb.meaning]
  rfl

theorem disj_spec (wf : s.WellFormed N) (ha : s.Denotes a f) (hb : s.Denotes b g) :
    Step.Yields (onManager (Manager.disj a b)) s fun r t => t.WellFormed N ∧
      t.Denotes r fun v => f v || g v := by
  refine (onManager_spec wf (Manager.disj_keeps (Manager.kept_within _) a b)
    (Manager.disj_spec wf.manager ha.has hb.has)).imp fun r t _ ⟨wft, hr⟩ =>
      ⟨wft, hr.congr fun v => ?_⟩
  rw [← ha.meaning, ← hb.meaning]
  rfl

theorem imp_spec (wf : s.WellFormed N) (ha : s.Denotes a f) (hb : s.Denotes b g) :
    Step.Yields (onManager (Manager.imp a b)) s fun r t => t.WellFormed N ∧
      t.Denotes r fun v => !f v || g v := by
  refine (onManager_spec wf (Manager.imp_keeps (Manager.kept_within _) a b)
    (Manager.imp_spec wf.manager ha.has hb.has)).imp fun r t _ ⟨wft, hr⟩ =>
      ⟨wft, hr.congr fun v => ?_⟩
  rw [← ha.meaning, ← hb.meaning]
  rfl

theorem ite_spec (wf : s.WellFormed N) (hc : s.Denotes c k) (ha : s.Denotes a f)
    (hb : s.Denotes b g) :
    Step.Yields (onManager (Manager.ite ⟨c, a, b⟩)) s fun r t => t.WellFormed N ∧
      t.Denotes r fun v => bif k v then f v else g v := by
  refine (onManager_spec wf (Manager.ite_keeps (Manager.kept_within _) _)
    (Manager.ite_denotes wf.manager hc.has ha.has hb.has)).imp fun r t _ ⟨wft, hr⟩ =>
      ⟨wft, hr.congr fun v => ?_⟩
  rw [← hc.meaning, ← ha.meaning, ← hb.meaning]
  rfl

end

/-! ### Making atoms -/

/-- What interning does, when the expression is not constant. -/
theorem perform_intern {e : LinExpr} (he : e.isConstant = false) (s : Skeleton) :
    ∃ journal, (intern e).perform s =
      (.ok (s.atoms.number e).1, ⟨{ s.manager with journal }, (s.atoms.number e).2⟩) := by
  unfold intern AtomTable.number
  simp only [he, Bool.false_eq_true, if_false, Step.perform_bind, Step.perform_query]
  cases hfind : s.atoms.find? e with
  | some x => exact ⟨s.manager.journal, rfl⟩
  | none => exact ⟨_, rfl⟩

theorem intern_grows (e : LinExpr) : Step.Grows (intern e) := by
  intro s
  cases he : e.isConstant with
  | true =>
    have hrun : (intern e).perform s = (.error .groundAtom, s) := by simp [intern, he]
    rw [hrun]
    exact Growing.refl s
  | false =>
    obtain ⟨journal, hrun⟩ := perform_intern he s
    rw [hrun]
    exact ⟨Manager.Extends.refl _, s.atoms.extends_number e⟩

theorem belowZero_grows (e : LinExpr) : Step.Grows (belowZero e) := by
  unfold belowZero
  split
  · exact Step.Grows.pure _
  · exact (intern_grows _).bind fun _ => onManager_grows (Manager.mkVar_grows _)

/-- The variable of an atom; it may be the one variable of an atom that is not stored yet. -/
theorem mkVar_spec {x : Nat} {e : LinExpr} (hx : s.atoms.atom x = .ok e)
    (wf : s.manager.WellFormed) (hwithin : s.manager.Within s.atoms.size)
    (hreduced : ∀ x e, s.atoms.atom x = .ok e → e.Reduced)
    (hnames : ∀ x e, s.atoms.atom x = .ok e → ∀ y ∈ e.vars, N y)
    (hstored : ∀ y, y ≠ x → 0 < y → y ≤ s.atoms.size →
      ∃ i, s.manager.nodes.value? i = some ⟨y, .zero, .one⟩) :
    Step.Yields (onManager (Manager.mkVar x)) s fun r t => t.WellFormed N ∧ t.atoms = s.atoms ∧
      t.manager.Denotes r fun a => a x := by
  obtain ⟨hpos, hle⟩ := AtomTable.le_size_of_atom hx
  intro hfit
  obtain ⟨r, m, hrun, hext, wfm, hr, hnode⟩ := Manager.mkVar_spec wf hpos hfit
  have hkeeps := Manager.mkVar_keeps (Manager.kept_within _) hle s.manager hwithin
  rw [hrun] at hkeeps
  refine ⟨r, ⟨m, s.atoms⟩, by rw [perform_onManager, hrun], ⟨hext, fun _ _ h => h⟩, ?_, rfl, hr⟩
  exact {
    manager := wfm
    within := hkeeps
    reduced := hreduced
    names := hnames
    stored := by
      intro y hypos hyle
      by_cases hy : y = x
      · rw [hy]
        exact hnode
      · obtain ⟨i, hi⟩ := hstored y hy hypos hyle
        exact ⟨i, hext i _ hi⟩ }

/-- The question whether an expression with symbolic constants is below zero is that for the
variable of the atom that its normal form is; if the atom is new, its variable is the one that is
not stored yet. -/
theorem belowZero_variable (wf : s.WellFormed N) {e : LinExpr} (he : e.Reduced)
    (hN : ∀ y ∈ e.vars, N y) (hconst : e.isConstant = false) :
    Step.Yields (belowZero e) s fun r t => t.WellFormed N ∧
      t.atoms = (s.atoms.number e.normalized).2 ∧
      t.manager.Denotes r fun a => a (s.atoms.number e.normalized).1 := by
  have hnormal : e.normalized.isConstant = false := by rw [LinExpr.isConstant_normalized he, hconst]
  obtain ⟨journal, hrun⟩ := perform_intern hnormal s
  unfold belowZero
  simp only [hconst, Bool.false_eq_true, if_false]
  refine Step.Yields.after hrun
    ⟨Manager.Extends.refl _, s.atoms.extends_number e.normalized⟩ ?_
  refine mkVar_spec (s.atoms.atom_number e.normalized) (wf.manager.withJournal journal)
    (wf.within.mono (s.atoms.size_le_number _)) ?_ ?_ fun y hy hpos hle =>
      wf.stored y hpos (AtomTable.le_size_of_number hy hle)
  · intro x d hd
    rcases AtomTable.atom_of_number hd with rfl | hd
    · exact he.normalized
    · exact wf.reduced x d hd
  · intro x d hd
    rcases AtomTable.atom_of_number hd with rfl | hd
    · exact fun y hy => hN y ((LinExpr.vars_normalized he).1 hy)
    · exact wf.names x d hd

/-- The contract of asking whether an expression is below zero. -/
theorem belowZero_spec (wf : s.WellFormed N) {e : LinExpr} (he : e.Reduced)
    (hN : ∀ y ∈ e.vars, N y) :
    Step.Yields (belowZero e) s fun r t => t.WellFormed N ∧
      t.Denotes r fun v => decide (e.eval v < 0) := by
  cases hconst : e.isConstant with
  | true =>
    unfold belowZero
    rw [if_pos hconst]
    -- without symbolic constants the answer is the same under all values
    refine Step.Yields.pure ⟨wf, ?_⟩
    split
    · next hneg =>
      exact wf.denotes_one.congr fun v => by simp [LinExpr.eval_of_isConstant hconst, hneg]
    · next hneg =>
      exact wf.denotes_zero.congr fun v => by simp [LinExpr.eval_of_isConstant hconst, hneg]
  | false =>
    obtain ⟨factor, hfactor, hvalue⟩ := LinExpr.eval_normalized he
    refine (belowZero_variable wf he hN hconst).imp fun r t _ ⟨wft, hatoms, hr⟩ =>
      ⟨wft, hr.has, fun v => ?_⟩
    have hatom : t.atoms.atom (s.atoms.number e.normalized).1 = .ok e.normalized := by
      rw [hatoms, AtomTable.atom_number]
    have hlt := mul_lt_mul_iff_right₀ (b := e.eval v) (c := 0) hfactor
    rw [mul_zero] at hlt
    rw [holds, hr.meaning, AtomTable.truth_of_atom hatom, hvalue, decide_eq_decide]
    exact hlt

/-! ### Comparisons with zero -/

theorem isZero_grows (e : LinExpr) : Step.Grows (isZero e) :=
  (belowZero_grows _).bind fun _ => (belowZero_grows _).bind fun _ =>
    onManager_grows (Manager.conj_grows _ _)

theorem isZero_spec (wf : s.WellFormed N) {e : LinExpr} (he : e.Reduced)
    (hN : ∀ y ∈ e.vars, N y) :
    Step.Yields (isZero e) s fun r t => t.WellFormed N ∧
      t.Denotes r fun v => decide (e.eval v = 0) := by
  have hneg := fun y (hy : y ∈ (-e).vars) => hN y (LinExpr.vars_neg.1 hy)
  refine (belowZero_spec wf he hN).pair (fun t wft => belowZero_spec wft he.neg hneg)
    (fun wft hu hbelow => hbelow.mono wft hu) (belowZero_grows _)
    (fun _ _ => onManager_grows (Manager.conj_grows _ _))
    fun below above u _ wfu hbelow habove => ?_
  refine (conj_spec wfu hbelow.neg habove.neg).imp
    fun r w _ ⟨wfw, hr⟩ => ⟨wfw, hr.congr fun v => ?_⟩
  rw [LinExpr.eval_neg, Bool.eq_iff_iff]
  simp only [Bool.and_eq_true, Bool.not_eq_true', decide_eq_false_iff_not, decide_eq_true_eq]
  constructor
  · rintro ⟨h, h'⟩
    linarith
  · intro h
    constructor <;> linarith

theorem relate_grows (r : Relation) (e : LinExpr) : Step.Grows (relate r e) := by
  cases r with
  | lt => exact belowZero_grows _
  | gt => exact belowZero_grows _
  | le => exact (belowZero_grows _).bind fun _ => Step.Grows.pure _
  | ge => exact (belowZero_grows _).bind fun _ => Step.Grows.pure _
  | eq => exact isZero_grows _
  | ne => exact (isZero_grows _).bind fun _ => Step.Grows.pure _

/-- The contract of comparing an expression with zero: each relation is made from "below zero" by
turning the expression, the answer, or both. -/
theorem relate_spec (wf : s.WellFormed N) (r : Relation) {e : LinExpr} (he : e.Reduced)
    (hN : ∀ y ∈ e.vars, N y) :
    Step.Yields (relate r e) s fun q t => t.WellFormed N ∧
      t.Denotes q fun v => r.holds (e.eval v) 0 := by
  have hneg := fun y (hy : y ∈ (-e).vars) => hN y (LinExpr.vars_neg.1 hy)
  cases r with
  | lt => exact belowZero_spec wf he hN
  | gt =>
    refine (belowZero_spec wf he.neg hneg).imp fun q t _ ⟨wft, hq⟩ =>
      ⟨wft, hq.congr fun v => ?_⟩
    simp [Relation.holds]
  | le =>
    refine (belowZero_spec wf he.neg hneg).bind (fun _ => Step.Grows.pure _)
      fun q t _ ⟨wft, hq⟩ => Step.Yields.pure ⟨wft, hq.neg.congr fun v => ?_⟩
    simp [Relation.holds, ← decide_not]
  | ge =>
    refine (belowZero_spec wf he hN).bind (fun _ => Step.Grows.pure _)
      fun q t _ ⟨wft, hq⟩ => Step.Yields.pure ⟨wft, hq.neg.congr fun v => ?_⟩
    simp [Relation.holds, ← decide_not]
  | eq => exact isZero_spec wf he hN
  | ne =>
    refine (isZero_spec wf he hN).bind (fun _ => Step.Grows.pure _)
      fun q t _ ⟨wft, hq⟩ => Step.Yields.pure ⟨wft, hq.neg.congr fun v => ?_⟩
    simp [Relation.holds]

/-! ### Paths -/

/-- The literals of a path are about atoms. -/
theorem WellFormed.isAtom (wf : s.WellFormed N) {r : Ref} {ls : List Literal}
    (h : s.manager.LeadsToOne r ls) : ∀ l ∈ ls, 0 < l.var ∧ l.var ≤ s.atoms.size := by
  intro l hl
  obtain ⟨i, n, hi, hn, hvar⟩ := h.branched l hl
  rw [← hvar]
  exact ⟨(wf.manager.fits i n hi hn).var_pos, wf.within i n hn⟩

/-- Blocking a path takes away the values under which all of its literals hold. -/
theorem block_spec (wf : s.WellFormed N) {r : Ref} {f : (String → Rat) → Bool}
    (hr : s.Denotes r f) {ls : List Literal} (hls : s.manager.LeadsToOne r ls) :
    Step.Yields (onManager (Manager.block r ls)) s fun q t => t.WellFormed N ∧
      t.Denotes q fun v => f v && !Literal.allHold ls (s.atoms.truth v) := by
  have hkeeps := Manager.block_keeps (Manager.kept_within _) (fun l hl => (wf.isAtom hls l hl).2) r
  refine (onManager_spec wf hkeeps (Manager.block_spec wf.manager hr.has hls)).imp
    fun q t _ ⟨wft, hq⟩ => ⟨wft, hq.congr fun v => ?_⟩
  rw [← hr.meaning]
  rfl

end Skeleton

/-! ### The constraints of a path -/

namespace AtomTable

/-- The constraint of a literal whose variable is an atom holds where the literal does. -/
theorem constraint_spec {t : AtomTable} {l : Literal} {e : LinExpr} (h : t.atom l.var = .ok e)
    (he : e.Reduced) :
    ∃ c, t.constraint l = .ok c ∧ c.expr.Reduced ∧ (∀ y, y ∈ c.expr.vars ↔ y ∈ e.vars) ∧
      ∀ v, c.holds v = l.holds (t.truth v) := by
  have hrun : t.constraint l = .ok (if l.isPositive then .ltZero e else .leZero (-e)) := by
    rw [constraint, h]
    rfl
  refine ⟨_, hrun, ?_⟩
  unfold Literal.holds
  cases l.isPositive with
  | true =>
    refine ⟨he, fun y => Iff.rfl, fun v => ?_⟩
    rw [truth_of_atom h, beq_true]
    rfl
  | false =>
    refine ⟨he.neg, fun y => LinExpr.vars_neg, fun v => ?_⟩
    rw [truth_of_atom h, beq_false, ← decide_not]
    show decide ((-e).eval v ≤ 0) = _
    rw [LinExpr.eval_neg, decide_eq_decide, not_lt, neg_nonpos]

/-- The constraints of literals over atoms: they hold all together where the literals do. -/
theorem constraints_spec {t : AtomTable} {N : String → Prop}
    (hreduced : ∀ x e, t.atom x = .ok e → e.Reduced)
    (hnames : ∀ x e, t.atom x = .ok e → ∀ y ∈ e.vars, N y) {ls : List Literal}
    (hls : ∀ l ∈ ls, 0 < l.var ∧ l.var ≤ t.size) :
    ∃ cs, t.constraints ls = .ok cs ∧ Constraint.AllReduced cs ∧
      (∀ c ∈ cs, ∀ y ∈ c.expr.vars, N y) ∧
      ∀ v, Constraint.AllHold cs v ↔ Literal.allHold ls (t.truth v) := by
  induction ls with
  | nil => exact ⟨[], rfl, by simp [Constraint.AllReduced], by simp, by
      simp [Constraint.AllHold, Literal.allHold]⟩
  | cons l ls ih =>
    obtain ⟨hpos, hle⟩ := hls l List.mem_cons_self
    obtain ⟨e, he⟩ := exists_atom hpos hle
    obtain ⟨c, hc, hcreduced, hcvars, hcholds⟩ := constraint_spec he (hreduced _ e he)
    obtain ⟨cs, hcs, hcsreduced, hcsnames, hcsholds⟩ :=
      ih fun k hk => hls k (List.mem_cons_of_mem l hk)
    have hrun : t.constraints (l :: ls) = .ok (c :: cs) := by
      unfold constraints at hcs ⊢
      rw [List.mapM_cons, hc, hcs]
      rfl
    refine ⟨c :: cs, hrun, ?_, ?_, fun v => ?_⟩
    · exact List.forall_mem_cons.2 ⟨hcreduced, hcsreduced⟩
    · exact List.forall_mem_cons.2 ⟨fun y hy => hnames _ e he y ((hcvars y).1 hy), hcsnames⟩
    · have hrest := hcsholds v
      unfold Constraint.AllHold at hrest ⊢
      rw [List.forall_mem_cons, hrest, hcholds]
      simp only [Literal.allHold, List.all_cons, Bool.and_eq_true]

end AtomTable

end BrakeCheck
