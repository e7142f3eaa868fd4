import BrakeCheck.Proofs.Path

/-!
# What operations on a store keep

The operations change a store in four ways only: they write entries in the journal, put nodes into
the table of nodes, and read and write the table of computed results.  A property that these steps
keep is kept by every operation, whatever happens.

The first such property is about variables.  No operation branches on a variable that does not
stand in the store already or is given to it, so that a store that knows the first `k` variables
alone has functions of these alone, whatever values the other variables have.

## Main definitions

* `Step.Keeps` — a property of the state that a computation keeps, whatever happens.
* `Manager.Kept` — the single steps keep a property of stores.
* `Manager.Within` — all nodes of a store branch on variables up to a given one.

## Main statements

* `Manager.ite_keeps`, `Manager.block_keeps` — what a choice and blocking a path keep.
* `Manager.kept_within` — operations bring in no variable.
* `Manager.holds_congr_of_within` — functions of a store depend on its variables alone.
* `Manager.mkVar_spec` — the contract of making a variable.
-/

namespace BrakeCheck

namespace Step

variable {σ α β : Type}

/-- The computation keeps a property of the state, also when it stops with a fault. -/
def Keeps (I : σ → Prop) (step : Step σ α) : Prop := ∀ s, I s → I (step.perform s).2

variable {I : σ → Prop}

theorem Keeps.pure (a : α) : Keeps I (Pure.pure a : Step σ α) := fun _ h => h

theorem Keeps.bind {step : Step σ α} {next : α → Step σ β} (hstep : Keeps I step)
    (hnext : ∀ a, Keeps I (next a)) : Keeps I (step >>= next) := by
  intro s hs
  rw [perform_bind]
  have h := hstep s hs
  rcases hrun : step.perform s with ⟨answer, t⟩
  rw [hrun] at h
  cases answer with
  | error f => exact h
  | ok a => exact hnext a t h

/-- What comes after a reading of the state may rely on what has been read. -/
theorem Keeps.query_bind {f : σ → Except Fault α} {next : α → Step σ β}
    (h : ∀ s a, I s → f s = .ok a → I ((next a).perform s).2) : Keeps I (query f >>= next) := by
  intro s hs
  rw [perform_bind, perform_query]
  cases hf : f s with
  | error e => exact hs
  | ok a => exact h s a hs hf

theorem Keeps.mapM {f : α → Step σ β} (hf : ∀ a, Keeps I (f a)) (as : List α) :
    Keeps I (as.mapM f) := by
  induction as with
  | nil => exact Keeps.pure _
  | cons a as ih =>
    rw [List.mapM_cons]
    exact (hf a).bind fun _ => ih.bind fun _ => Keeps.pure _

theorem Keeps.ite {p : Prop} [Decidable p] {yes no : Step σ α} (hyes : Keeps I yes)
    (hno : Keeps I no) : Keeps I (if p then yes else no) := by
  split
  · exact hyes
  · exact hno

end Step

namespace Manager

/-- All nodes of a store branch on variables up to `k`. -/
def Within (k : Nat) (m : Manager) : Prop := ∀ i n, m.nodes.value? i = some n → n.var ≤ k

theorem Within.mono {j k : Nat} {m : Manager} (h : m.Within j) (hjk : j ≤ k) : m.Within k :=
  fun i n hn => Nat.le_trans (h i n hn) hjk

/-- The functions of a store depend on the variables of the store alone. -/
theorem holds_congr_of_within {m : Manager} (wf : m.WellFormed) {k : Nat} (h : m.Within k)
    {a b : Nat → Bool} (hab : ∀ v, 0 < v → v ≤ k → a v = b v) {r : Ref} (hr : m.Has r) :
    m.holds a r = m.holds b r := by
  obtain ⟨i, negated⟩ := r
  induction i using Nat.strongRecOn generalizing negated with
  | _ i ih =>
    by_cases hi : i = Ref.terminal
    · subst hi
      rw [holds, holds]
      simp
    · obtain ⟨n, hn⟩ := Option.isSome_iff_exists.1 hr
      have hfits := wf.fits i n hi hn
      have hle : i ≤ m.nodes.size + 1 := Nat.le_succ_of_le hr.index_le
      -- both edges lead to older nodes, which depend on the variables up to `k` alone
      have hlow := ih n.low.index hfits.low_lt n.low.negated (hfits.has_low hle)
      have hhigh := ih n.high.index hfits.high_lt n.high.negated (hfits.has_high hle)
      rw [holds_node hi hn hfits.low_lt hfits.high_lt, holds_node hi hn hfits.low_lt hfits.high_lt,
        hab n.var hfits.var_pos (h i n hn), hlow, hhigh]

/-- The first store branches on no variable at all. -/
theorem within_of_create {bits : Nat} {journal : Journal} {m : Manager}
    (h : create bits journal = .ok m) (k : Nat) : m.Within k := by
  have wf := wellFormed_of_create h
  have hsize : m.nodes.size = 1 := by
    rw [eq_of_create h]
    rfl
  intro i n hn
  have hle := (HashCons.isSome_value?_iff.1 (Option.isSome_of_eq_some hn))
  -- the only node is the terminal, which has no variable
  have hi : i = Ref.terminal := by
    show i = 1
    omega
  rw [hi, wf.terminal] at hn
  cases hn
  exact Nat.zero_le k

/-- One more node is within the variables if its variable is. -/
theorem put_within {k : Nat} {m : Manager} (h : m.Within k) {n : Node} (hn : n.var ≤ k) :
    (m.put n).Within k := by
  intro i d hd
  rcases HashCons.of_value?_put hd with ⟨-, rfl⟩ | hold
  · exact hn
  · exact h i d hold

theorem var_le_of_within {k : Nat} {m : Manager} (h : m.Within k) {r : Ref} {v : Nat}
    (hv : m.var r = .ok v) : v ≤ k := by
  unfold var node HashCons.value at hv
  split at hv
  · cases hv
  · cases hn : m.nodes.value? r.index with
    | none => simp [hn, Except.map] at hv
    | some n =>
      rw [hn] at hv
      cases hv
      exact h _ n hn

/-- The variable at which a choice is split stands in the store. -/
theorem split_le_of_within {k : Nat} {m : Manager} (h : m.Within k) {c : Choice} {v : Nat}
    {no yes : Choice} (hsplit : m.split c = .ok (v, no, yes)) : v ≤ k := by
  have htop : m.topVar c = .ok v := by
    unfold split at hsplit
    cases htop : m.topVar c with
    | error f => simp [htop, bind, Except.bind] at hsplit
    | ok u =>
      simp only [htop, bind, Except.bind, pure, Except.pure] at hsplit
      split at hsplit
      · cases hsplit
      · split at hsplit
        · cases hsplit
        · split at hsplit
          · cases hsplit
          · cases hsplit
            rfl
  unfold topVar at htop
  cases hi : m.var c.test with
  | error f => simp [hi, bind, Except.bind] at htop
  | ok i =>
    cases hj : m.var c.yes with
    | error f => simp [hi, hj, bind, Except.bind] at htop
    | ok j =>
      cases hl : m.var c.no with
      | error f => simp [hi, hj, hl, bind, Except.bind] at htop
      | ok l =>
        have hik := var_le_of_within h hi
        simp only [hi, hj, hl, bind, Except.bind, pure, Except.pure] at htop
        split at htop
        · cases htop
        · cases htop
          split <;> split <;> omega

/-! ### Properties kept step by step -/

/-- The single steps of the operations keep a property of stores, where the nodes put into the
store branch on variables of `P` alone; the variables at which choices are split are such. -/
structure Kept (I : Manager → Prop) (P : Nat → Prop) : Prop where
  journal : ∀ {m : Manager} (journal : Journal), I m → I { m with journal }
  put : ∀ {m : Manager} {n : Node}, I m → P n.var → I (m.put n)
  lookup : ∀ {m : Manager} (c : Choice), I m →
    I { m with computed := (m.computed.lookup c).2 }
  insert : ∀ {m : Manager} (c : Choice) (r : Ref), I m →
    I { m with computed := m.computed.insert c r }
  split : ∀ {m : Manager} {c : Choice} {v : Nat} {no yes : Choice}, I m →
    m.split c = .ok (v, no, yes) → P v

/-- Operations bring in no variable. -/
theorem kept_within (k : Nat) : Kept (Within k) (· ≤ k) where
  journal _ h := h
  put h hn := put_within h hn
  lookup _ h := h
  insert _ _ h := h
  split h hsplit := split_le_of_within h hsplit

section
variable {I : Manager → Prop} {P : Nat → Prop} (hI : Kept I P)
include hI

theorem note_keeps (level : Level) (origin : Origin) (text : Thunk String) :
    Step.Keeps I (note level origin text) := fun _ h => hI.journal _ h

theorem share_keeps {v : Nat} (hv : P v) (low high : Ref) :
    Step.Keeps I (share v low high) :=
  Step.Keeps.ite (Step.Keeps.pure _) fun _ h => hI.put (n := ⟨v, low, high⟩) h hv

theorem mkNode_keeps {v : Nat} (hv : P v) (low high : Ref) :
    Step.Keeps I (mkNode v low high) := by
  by_cases hzero : v = 0
  · subst hzero
    exact fun _ h => hI.journal _ h
  · rw [mkNode_of_pos (Nat.pos_of_ne_zero hzero)]
    refine (note_keeps hI _ _ _).bind fun _ => Step.Keeps.ite ?_ (share_keeps hI hv _ _)
    exact (note_keeps hI _ _ _).bind fun _ => (share_keeps hI hv _ _).bind fun _ =>
      Step.Keeps.pure _

theorem mkVar_keeps {v : Nat} (hv : P v) : Step.Keeps I (mkVar v) := by
  by_cases hzero : v = 0
  · subst hzero
    exact fun _ h => h
  · simp only [mkVar, hzero, if_false]
    exact mkNode_keeps hI hv _ _

/-! ### Choices -/

theorem known_keeps (c : Choice) : Step.Keeps I (known c) := fun _ h => hI.lookup c h

theorem remember_keeps (c : Choice) (r : Ref) : Step.Keeps I (remember c r) :=
  fun _ h => hI.insert c r h

theorem ite_keeps (c : Choice) : Step.Keeps I (ite c) := by
  induction hheight : c.height using Nat.strongRecOn generalizing c with
  | _ height ih =>
    subst hheight
    rw [ite]
    refine (note_keeps hI _ _ _).bind fun _ => ?_
    split
    · exact Step.Keeps.pure _
    · next d hd => exact ih d.height (Choice.height_lt_of_shortcut hd) d rfl
    · refine (known_keeps hI _).bind fun found => ?_
      cases found with
      | some r => exact (note_keeps hI _ _ _).bind fun _ => Step.Keeps.pure _
      | none =>
        refine Step.Keeps.query_bind fun m ⟨v, no, yes⟩ hm hsplit => ?_
        have hv := hI.split hm hsplit
        dsimp only
        split
        · next hlt =>
          refine (ih _ hlt.1 no rfl).bind (fun low => ?_) m hm
          refine (ih _ hlt.2 yes rfl).bind fun high => ?_
          exact (mkNode_keeps hI hv _ _).bind fun _ => (note_keeps hI _ _ _).bind fun _ =>
            (remember_keeps hI _ _).bind fun _ => Step.Keeps.pure _
        · exact hm

theorem conj_keeps (a b : Ref) : Step.Keeps I (conj a b) := ite_keeps hI _

theorem disj_keeps (a b : Ref) : Step.Keeps I (disj a b) := ite_keeps hI _

theorem imp_keeps (a b : Ref) : Step.Keeps I (imp a b) := ite_keeps hI _

theorem conjFrom_keeps (rs : List Ref) : ∀ acc, Step.Keeps I (conjFrom acc rs) := by
  induction rs with
  | nil => exact fun acc => Step.Keeps.pure acc
  | cons r rs ih =>
    intro acc
    exact (conj_keeps hI _ _).bind fun acc => Step.Keeps.ite (Step.Keeps.pure _) (ih acc)

theorem disjFrom_keeps (rs : List Ref) : ∀ acc, Step.Keeps I (disjFrom acc rs) := by
  induction rs with
  | nil => exact fun acc => Step.Keeps.pure acc
  | cons r rs ih =>
    intro acc
    exact (disj_keeps hI _ _).bind fun acc => Step.Keeps.ite (Step.Keeps.pure _) (ih acc)

/-! ### Cubes -/

theorem above_keeps {l : Literal} (hl : P l.var) (r : Ref) :
    Step.Keeps I (above l r) :=
  Step.Keeps.ite (mkNode_keeps hI hl _ _) (mkNode_keeps hI hl _ _)

theorem stack_keeps {ls : List Literal} (hls : ∀ l ∈ ls, P l.var) :
    ∀ r, Step.Keeps I (stack r ls) := by
  induction ls with
  | nil => exact fun r => Step.Keeps.pure r
  | cons l ls ih =>
    intro r
    exact (above_keeps hI (hls l List.mem_cons_self) r).bind fun q =>
      ih (fun d hd => hls d (List.mem_cons_of_mem l hd)) q

theorem mkCube_keeps {ls : List Literal} (hls : ∀ l ∈ ls, P l.var) :
    Step.Keeps I (mkCube ls) :=
  (note_keeps hI _ _ _).bind fun _ =>
    stack_keeps hI (fun l hl => hls l ((bottomUp_perm ls).mem_iff.1 hl)) _

theorem block_keeps {ls : List Literal} (hls : ∀ l ∈ ls, P l.var) (r : Ref) :
    Step.Keeps I (block r ls) :=
  (mkCube_keeps hI hls).bind fun _ => conj_keeps hI _ _

end

/-! ### Variables -/

/-- The contract of making a variable: it stands for its own value, and its node is stored. -/
theorem mkVar_spec {m : Manager} (wf : m.WellFormed) {v : Nat} (hv : 0 < v) :
    Step.Yields (mkVar v) m fun r t => t.WellFormed ∧ t.Denotes r (fun x => x v) ∧
      ∃ i, t.nodes.value? i = some ⟨v, .zero, .one⟩ := by
  have hbranch : m.CanBranch v .zero .one :=
    ⟨hv, wf.has_zero, wf.has_one, below_zero m v, below_one m v⟩
  have hrun : (mkVar v).perform m = (mkNode v .zero .one).perform m := by
    have hne : v ≠ 0 := by omega
    simp [mkVar, hne]
  have hstored : ∃ i, ((mkNode v .zero .one).perform m).2.nodes.value? i =
      some ⟨v, .zero, .one⟩ := by
    rw [mkNode_of_pos hv]
    exact ⟨_, HashCons.value?_put_self _ _⟩
  unfold Step.Yields
  rw [hrun]
  intro hfit
  obtain ⟨r, t, hperform, hext, wft, hjoins⟩ := mkNode_spec wf hbranch hfit
  rw [hperform] at hstored
  refine ⟨r, t, hperform, hext, wft, ⟨hjoins.has, fun x => ?_⟩, hstored⟩
  rw [hjoins.meaning, holds_one, holds_zero]
  cases x v <;> rfl

end Manager

end BrakeCheck
