import BrakeCheck.Proofs.Choice

/-!
# Results that can be computed again

The computed table forgets: an entry gives way to the next one that falls into its slot.  A choice
whose entry has gone is computed again, and as all nodes of the first computation are still there,
it comes to the same reference and makes no node.  This says nothing of functions, so that neither
the order of the variables nor the width of the references has a part in it.

## Main definitions

* `Manager.Lasting` — what is read in a store is read in every store that extends it.
* `Manager.Retraces` — a choice can be computed from the nodes that there are.
* `Manager.Coherent` — nodes are found again, and results that are kept can be computed again.
* `Manager.Finds` — a computation answers with a reference and makes no node.
* `Manager.Leaves` — what a computation leaves behind, also when it stops with a fault.

## Main statements

* `Manager.ite_of_retraces` — a choice that can be retraced is answered so and makes no node,
  whatever is left in the computed table.
* `Manager.ite_leaves` — a choice that has been answered can be retraced.
-/

namespace BrakeCheck.Manager

variable {α β : Type} {m n : Manager}

/-! ### Readings that last -/

/-- What is read in a store is read in every store that extends it. -/
def Lasting (f : Manager → Except Fault α) : Prop :=
  ∀ (m n : Manager) (a : α), n.Extends m → f m = .ok a → f n = .ok a

theorem Lasting.pure (a : α) : Lasting fun _ => Pure.pure a := fun _ _ _ _ h => h

theorem Lasting.throw (f : Fault) : Lasting fun _ => (MonadExcept.throw f : Except Fault α) :=
  fun _ _ _ _ h => h

theorem Lasting.bind {f : Manager → Except Fault α} {g : Manager → α → Except Fault β}
    (hf : Lasting f) (hg : ∀ a, Lasting fun m => g m a) : Lasting fun m => f m >>= g m := by
  intro m n b hext h
  dsimp only at h ⊢
  cases hm : f m with
  | error e => rw [hm] at h; cases h
  | ok a =>
    rw [hm] at h
    rw [hf m n a hext hm]
    exact hg a m n b hext h

theorem Lasting.map {f : Manager → Except Fault α} (hf : Lasting f) (g : α → β) :
    Lasting fun m => (f m).map g := by
  intro m n b hext h
  dsimp only at h ⊢
  cases hm : f m with
  | error e => rw [hm] at h; cases h
  | ok a =>
    rw [hm] at h
    rw [hf m n a hext hm, h]

theorem Lasting.ite {p : Prop} [Decidable p] {f g : Manager → Except Fault α} (hf : Lasting f)
    (hg : Lasting g) : Lasting fun m => if p then f m else g m := by
  split
  · exact hf
  · exact hg

theorem lasting_node (r : Ref) : Lasting fun m => m.node r := by
  intro m n d hext h
  dsimp only [node, HashCons.value] at h ⊢
  split at h
  · cases h
  · next hzero =>
    cases hm : m.nodes.value? r.index with
    | none => rw [hm] at h; cases h
    | some e =>
      rw [hm] at h
      rw [if_neg hzero, hext _ e hm]
      exact h

theorem lasting_var (r : Ref) : Lasting fun m => m.var r := (lasting_node r).map _

theorem lasting_low (r : Ref) : Lasting fun m => m.low r := (lasting_node r).map _

theorem lasting_high (r : Ref) : Lasting fun m => m.high r := (lasting_node r).map _

theorem lasting_cofactors (r : Ref) (v : Nat) : Lasting fun m => m.cofactors r v := by
  have edges : Lasting fun m => (do return (← m.low r, ← m.high r) : Except Fault (Ref × Ref)) :=
    (lasting_low r).bind fun _ => (lasting_high r).bind fun _ => Lasting.pure _
  unfold cofactors
  refine Lasting.ite ((Lasting.throw _).bind fun _ => ?_) ?_
  all_goals
    refine Lasting.ite (Lasting.pure _) ((lasting_var r).bind fun own => ?_)
    exact Lasting.ite (Lasting.pure _) (Lasting.ite ((Lasting.throw _).bind fun _ => edges) edges)

theorem lasting_topVar (c : Choice) : Lasting fun m => m.topVar c := by
  unfold topVar
  refine (lasting_var _).bind fun i => (lasting_var _).bind fun j => ?_
  refine (lasting_var _).bind fun k => ?_
  exact Lasting.ite ((Lasting.throw _).bind fun _ => Lasting.pure _) (Lasting.pure _)

theorem lasting_split (c : Choice) : Lasting fun m => m.split c := by
  unfold split
  refine (lasting_topVar c).bind fun v => ?_
  refine (lasting_cofactors _ v).bind fun f => (lasting_cofactors _ v).bind fun g => ?_
  exact (lasting_cofactors _ v).bind fun h => Lasting.pure _

/-! ### Nodes that are there -/

/-- No node has to be made for the given edges, and `r` is the reference to them. -/
def Shares (m : Manager) (v : Nat) (low high r : Ref) : Prop :=
  if low = high then r = low
  else ∃ i, m.nodes.value? i = some ⟨v, low, high⟩ ∧ r = Ref.of i false

/-- The function with the given edges needs no new node: if the high edge is a complement, the
opposite function needs none. -/
structure Branches (m : Manager) (v : Nat) (low high r : Ref) : Prop where
  var_pos : 0 < v
  shares : m.Shares v (low.flipIf high.negated) (high.flipIf high.negated) (r.flipIf high.negated)

theorem Shares.mono {v : Nat} {low high r : Ref} (hext : n.Extends m)
    (h : m.Shares v low high r) : n.Shares v low high r := by
  unfold Shares at h ⊢
  split at h
  · next heq => rw [if_pos heq, h]
  · next hne =>
    obtain ⟨i, hi, hr⟩ := h
    rw [if_neg hne]
    exact ⟨i, hext i _ hi, hr⟩

theorem Branches.mono {v : Nat} {low high r : Ref} (hext : n.Extends m)
    (h : m.Branches v low high r) : n.Branches v low high r := ⟨h.var_pos, h.shares.mono hext⟩

/-! ### Choices that can be computed from the nodes -/

/-- The choice comes to `r` by readings of nodes that there are: it is answered at once, or by what
it is rewritten to, or by a node that there is for what its two remaining choices come to. -/
inductive Retraces (m : Manager) : Choice → Ref → Prop where
  | answer {c r} (h : c.shortcut = .answer r) : Retraces m c r
  | rewrite {c d r} (h : c.shortcut = .rewrite d) (hd : Retraces m d r) : Retraces m c r
  | split {c v no yes low high r} (h : c.shortcut = .split)
      (hsplit : m.split c.regular.1 = .ok (v, no, yes))
      (hlt : no.height < c.height ∧ yes.height < c.height) (hno : Retraces m no low)
      (hyes : Retraces m yes high) (hr : m.Branches v low high r) :
      Retraces m c (r.flipIf c.regular.2)

/-- The last step on the way to a result for a choice in its regular form. -/
def Composes (m : Manager) (c : Choice) (r : Ref) : Prop :=
  ∃ v no yes low high, m.split c = .ok (v, no, yes) ∧ no.height < c.height ∧
    yes.height < c.height ∧ m.Retraces no low ∧ m.Retraces yes high ∧ m.Branches v low high r

theorem Retraces.mono (hext : n.Extends m) {c : Choice} {r : Ref} (h : m.Retraces c r) :
    n.Retraces c r := by
  induction h with
  | answer h => exact .answer h
  | rewrite h _ ih => exact .rewrite h ih
  | split h hsplit hlt _ _ hr ihno ihyes =>
    exact .split h (lasting_split _ m n _ hext hsplit) hlt ihno ihyes (hr.mono hext)

theorem Composes.mono (hext : n.Extends m) {c : Choice} {r : Ref} (h : m.Composes c r) :
    n.Composes c r := by
  obtain ⟨v, no, yes, low, high, hsplit, hltno, hltyes, hno, hyes, hr⟩ := h
  exact ⟨v, no, yes, low, high, lasting_split _ m n _ hext hsplit, hltno, hltyes, hno.mono hext,
    hyes.mono hext, hr.mono hext⟩

/-- The way from the two choices that remain of a choice to the result for its regular form. -/
theorem Composes.of_split {c : Choice} {v : Nat} {no yes : Choice} {low high r : Ref}
    (hsplit : m.split c.regular.1 = .ok (v, no, yes))
    (hlt : no.height < c.height ∧ yes.height < c.height) (hno : m.Retraces no low)
    (hyes : m.Retraces yes high) (hr : m.Branches v low high r) : m.Composes c.regular.1 r := by
  rw [← Choice.height_regular c] at hlt
  exact ⟨v, no, yes, low, high, hsplit, hlt.1, hlt.2, hno, hyes, hr⟩

/-- A choice that has to be split comes to what its regular form does, up to the complement. -/
theorem retraces_split_iff {c : Choice} (h : c.shortcut = .split) {r : Ref} :
    m.Retraces c r ↔ ∃ q, m.Composes c.regular.1 q ∧ r = q.flipIf c.regular.2 := by
  constructor
  · intro hr
    cases hr with
    | answer h' => rw [h] at h'; cases h'
    | rewrite h' _ => rw [h] at h'; cases h'
    | split _ hsplit hlt hno hyes hq => exact ⟨_, .of_split hsplit hlt hno hyes hq, rfl⟩
  · rintro ⟨q, ⟨v, no, yes, low, high, hsplit, hltno, hltyes, hno, hyes, hq⟩, rfl⟩
    rw [Choice.height_regular] at hltno hltyes
    exact .split h hsplit ⟨hltno, hltyes⟩ hno hyes hq

/-! ### Coherent stores -/

/-- Each node is found under its own index, and each result that is kept can be computed again. -/
structure Coherent (m : Manager) : Prop where
  found : ∀ i d, 0 < d.var → m.nodes.value? i = some d → m.nodes.find? d = some i
  buckets_pos : 0 < m.nodes.buckets.size
  slots_pos : 0 < m.computed.slots.size
  computed : ∀ c r, m.computed.find? c = some r → m.Composes c r

theorem Coherent.congr (hm : m.Coherent) (hnodes : n.nodes = m.nodes)
    (hslots : 0 < n.computed.slots.size)
    (hcomputed : ∀ c r, n.computed.find? c = some r → m.Composes c r) : n.Coherent where
  found := by rw [hnodes]; exact hm.found
  buckets_pos := by rw [hnodes]; exact hm.buckets_pos
  slots_pos := hslots
  computed c r hc := (hcomputed c r hc).mono (extends_of_nodes_eq hnodes)

theorem Coherent.withJournal (hm : m.Coherent) (journal : Journal) :
    ({ m with journal } : Manager).Coherent :=
  hm.congr rfl hm.slots_pos hm.computed

/-- A store with one more node. -/
theorem Coherent.put (hm : m.Coherent) (d : Node) : (m.put d).Coherent where
  found i e he hi := HashCons.find?_of_value?_put hm.buckets_pos (hm.found i e he) hi
  buckets_pos := by
    show 0 < (m.nodes.put d).2.buckets.size
    rw [HashCons.buckets_size_put]
    exact hm.buckets_pos
  slots_pos := hm.slots_pos
  computed c r hc := (hm.computed c r hc).mono (put_extends m d)

/-- A result that can be computed again may be kept. -/
theorem Coherent.insert (hm : m.Coherent) {c : Choice} {r : Ref} (h : m.Composes c r) :
    ({ m with computed := m.computed.insert c r } : Manager).Coherent := by
  refine hm.congr rfl ?_ fun d s hs => ?_
  · rw [ComputedTable.size_slots_insert]
    exact hm.slots_pos
  · rcases ComputedTable.find?_of_insert hm.slots_pos hs with ⟨rfl, rfl⟩ | hold
    · exact h
    · exact hm.computed d s hold

/-- The store that holds the terminal alone is coherent. -/
theorem coherent_of_create {bits : Nat} {journal : Journal} (h : create bits journal = .ok m) :
    m.Coherent := by
  have wf := wellFormed_of_create h
  refine ⟨fun i d hd hi => wf.found i d (fun hterminal => ?_) hi, wf.buckets_pos, wf.slots_pos, ?_⟩
  · have hzero := (wf.var_eq_zero_iff hi).2 hterminal
    omega
  · rw [eq_of_create h]
    intro c r hc
    simp at hc

/-! ### Each choice comes to one reference -/

theorem Coherent.shares_unique (hm : m.Coherent) {v : Nat} (hv : 0 < v) {low high r s : Ref}
    (hr : m.Shares v low high r) (hs : m.Shares v low high s) : r = s := by
  unfold Shares at hr hs
  split at hr
  · next heq =>
    rw [if_pos heq] at hs
    rw [hr, hs]
  · next hne =>
    rw [if_neg hne] at hs
    obtain ⟨i, hi, rfl⟩ := hr
    obtain ⟨j, hj, rfl⟩ := hs
    have hij := (hm.found i _ hv hi).symm.trans (hm.found j _ hv hj)
    rw [Option.some.inj hij]

theorem Coherent.branches_unique (hm : m.Coherent) {v : Nat} {low high r s : Ref}
    (hr : m.Branches v low high r) (hs : m.Branches v low high s) : r = s :=
  Ref.flipIf_inj.1 (hm.shares_unique hr.var_pos hr.shares hs.shares)

theorem Retraces.unique (hm : m.Coherent) {c : Choice} {r s : Ref} (hr : m.Retraces c r)
    (hs : m.Retraces c s) : r = s := by
  induction hr generalizing s with
  | answer h =>
    cases hs with
    | answer h' => rw [h] at h'; cases h'; rfl
    | rewrite h' _ => rw [h] at h'; cases h'
    | split h' => rw [h] at h'; cases h'
  | rewrite h _ ih =>
    cases hs with
    | answer h' => rw [h] at h'; cases h'
    | rewrite h' hd => rw [h] at h'; cases h'; exact ih hd
    | split h' => rw [h] at h'; cases h'
  | split h hsplit _ _ _ hq ihno ihyes =>
    cases hs with
    | answer h' => rw [h] at h'; cases h'
    | rewrite h' _ => rw [h] at h'; cases h'
    | split _ hsplit' _ hno hyes hq' =>
      rw [hsplit] at hsplit'
      cases hsplit'
      rw [← ihno hno, ← ihyes hyes] at hq'
      rw [hm.branches_unique hq hq']

theorem Composes.unique (hm : m.Coherent) {c : Choice} {r s : Ref} (hr : m.Composes c r)
    (hs : m.Composes c s) : r = s := by
  obtain ⟨v, no, yes, low, high, hsplit, -, -, hno, hyes, hq⟩ := hr
  obtain ⟨v', no', yes', low', high', hsplit', -, -, hno', hyes', hq'⟩ := hs
  rw [hsplit] at hsplit'
  cases hsplit'
  rw [← hno.unique hm hno', ← hyes.unique hm hyes'] at hq'
  exact hm.branches_unique hq hq'

/-! ### Computing a result again -/

/-- The computation answers with the reference `r` and makes no node, and it leaves a coherent
store. -/
def Finds (step : Step Manager Ref) (m : Manager) (r : Ref) : Prop :=
  ∃ t, step.perform m = (.ok r, t) ∧ t.nodes = m.nodes ∧ t.Coherent

theorem Finds.pure (hm : m.Coherent) (r : Ref) : Finds (Pure.pure r) m r := ⟨m, rfl, rfl, hm⟩

/-- A computation that makes no node, and one after it that finds a reference. -/
theorem Finds.after {step : Step Manager α} {next : α → Step Manager Ref} {a : α} {t : Manager}
    {r : Ref} (hrun : step.perform m = (.ok a, t)) (hnodes : t.nodes = m.nodes)
    (h : Finds (next a) t r) : Finds (step >>= next) m r := by
  obtain ⟨u, hu, hnodes', hcoherent⟩ := h
  exact ⟨u, by rw [Step.perform_bind, hrun]; exact hu, hnodes'.trans hnodes, hcoherent⟩

theorem Finds.after_note (hm : m.Coherent) {level : Level} {origin : Origin} {text : Thunk String}
    {next : Unit → Step Manager Ref} {r : Ref}
    (h : ∀ t : Manager, t.Coherent → t.nodes = m.nodes → Finds (next ()) t r) :
    Finds (note level origin text >>= next) m r :=
  Finds.after rfl rfl (h _ (hm.withJournal _) rfl)

theorem share_of_shares (hm : m.Coherent) {v : Nat} (hv : 0 < v) {low high r : Ref}
    (h : m.Shares v low high r) : Finds (share v low high) m r := by
  unfold Shares at h
  split at h
  · next heq =>
    unfold share
    rw [if_pos heq, h]
    exact Finds.pure hm low
  · next hne =>
    obtain ⟨i, hi, rfl⟩ := h
    exact ⟨m, perform_share_of_find? hne (hm.found i _ hv hi), rfl, hm⟩

theorem mkNode_of_branches (hm : m.Coherent) {v : Nat} {low high r : Ref}
    (h : m.Branches v low high r) : Finds (mkNode v low high) m r := by
  rw [mkNode_of_pos h.var_pos]
  refine Finds.after_note hm fun t ht hnodes => ?_
  have hshares := h.shares.mono (extends_of_nodes_eq hnodes)
  split
  · next hneg =>
    refine Finds.after_note ht fun u hu hnodes' => ?_
    rw [hneg] at hshares
    obtain ⟨w, hw, hnodesw, hcoherent⟩ := share_of_shares hu h.var_pos
      (hshares.mono (extends_of_nodes_eq hnodes'))
    refine Finds.after hw hnodesw ?_
    show Finds (Pure.pure (- -r)) w r
    rw [Ref.neg_neg]
    exact Finds.pure hcoherent r
  · next hneg =>
    rw [Bool.not_eq_true] at hneg
    rw [hneg] at hshares
    exact share_of_shares ht h.var_pos hshares

/-- A look into the computed table leaves a coherent store. -/
theorem perform_known (hm : m.Coherent) (c : Choice) :
    ∃ t, (known c).perform m = (.ok (m.computed.find? c), t) ∧ t.nodes = m.nodes ∧ t.Coherent := by
  refine ⟨{ m with computed := (m.computed.lookup c).2 }, ?_, rfl, hm.congr rfl ?_ fun d s hs => ?_⟩
  · rw [← ComputedTable.fst_lookup]
    rfl
  · rw [ComputedTable.slots_lookup]
    exact hm.slots_pos
  · exact hm.computed d s ((ComputedTable.find?_lookup _ _ _).symm.trans hs)

/-- A choice that is split finds what its two remaining choices come to, and the node for it. -/
theorem iteSplit_of_branches {c : Choice} {v : Nat} {no yes : Choice} {low high q : Ref}
    (hsplit : m.split c.regular.1 = .ok (v, no, yes))
    (hlt : no.height < c.height ∧ yes.height < c.height) (hq : m.Branches v low high q)
    (hcomposes : m.Composes c.regular.1 q)
    (ihno : ∀ t : Manager, t.Coherent → t.nodes = m.nodes → Finds (ite no) t low)
    (ihyes : ∀ t : Manager, t.Coherent → t.nodes = m.nodes → Finds (ite yes) t high)
    {n : Manager} (hn : n.Coherent) (hnodes : n.nodes = m.nodes) :
    Finds (iteSplit c) n (q.flipIf c.regular.2) := by
  have hsplitn : n.split c.regular.1 = .ok (v, no, yes) :=
    lasting_split _ m n _ (extends_of_nodes_eq hnodes) hsplit
  refine Finds.after (by rw [Step.perform_query, hsplitn]) rfl ?_
  dsimp only
  rw [if_pos hlt]
  obtain ⟨t1, hrun1, hnodes1, h1⟩ := ihno n hn hnodes
  refine Finds.after hrun1 hnodes1 ?_
  have hnodes1m := hnodes1.trans hnodes
  obtain ⟨t2, hrun2, hnodes2, h2⟩ := ihyes t1 h1 hnodes1m
  refine Finds.after hrun2 hnodes2 ?_
  have hnodes2m := hnodes2.trans hnodes1m
  obtain ⟨t3, hrun3, hnodes3, h3⟩ :=
    mkNode_of_branches h2 (hq.mono (extends_of_nodes_eq hnodes2m))
  refine Finds.after hrun3 hnodes3 (Finds.after_note h3 fun t4 h4 hnodes4 => ?_)
  have hnodes4m := hnodes4.trans (hnodes3.trans hnodes2m)
  have hkept := h4.insert (hcomposes.mono (extends_of_nodes_eq hnodes4m))
  exact Finds.after rfl rfl (Finds.pure hkept _)

/-- A choice that can be retraced is answered so, and no node is made on the way, whatever is left
in the computed table.  By induction on the way: what is found in the table is what it comes to. -/
theorem ite_of_retraces {c : Choice} {r : Ref} (h : m.Retraces c r) :
    ∀ n : Manager, n.Coherent → n.nodes = m.nodes → Finds (ite c) n r := by
  induction h with
  | answer h =>
    intro n hn _
    rw [ite_of_answer h]
    exact Finds.after_note hn fun t ht _ => Finds.pure ht _
  | rewrite h _ ih =>
    intro n hn hnodes
    rw [ite_of_rewrite h]
    exact Finds.after_note hn fun t ht hnodes' => ih t ht (hnodes'.trans hnodes)
  | @split c v no yes low high q h hsplit hlt hno hyes hq ihno ihyes =>
    intro n hn hnodes
    rw [ite_of_split h]
    refine Finds.after_note hn fun t ht hnodest => ?_
    have hcomposes : m.Composes c.regular.1 q := .of_split hsplit hlt hno hyes hq
    obtain ⟨u, hu, hnodesu, hcoherent⟩ := perform_known ht c.regular.1
    refine Finds.after hu hnodesu ?_
    have hnodesm := hnodest.trans hnodes
    cases hfind : t.computed.find? c.regular.1 with
    | some p =>
      rw [(ht.computed _ p hfind).unique ht (hcomposes.mono (extends_of_nodes_eq hnodesm))]
      exact Finds.after_note hcoherent fun w hw _ => Finds.pure hw _
    | none =>
      exact iteSplit_of_branches hsplit hlt hq hcomposes ihno ihyes hcoherent
        (hnodesu.trans hnodesm)

/-! ### What computations leave behind -/

/-- Whether it ends with an answer or with a fault, the computation leaves a coherent store that
extends the first one, and if there is an answer, it is as `P` says. -/
structure Leaves (step : Step Manager α) (m : Manager) (P : α → Manager → Prop) : Prop where
  extends_start : (step.perform m).2.Extends m
  coherent : (step.perform m).2.Coherent
  answer : ∀ a, (step.perform m).1 = .ok a → P a (step.perform m).2

variable {step : Step Manager α} {P : α → Manager → Prop} {Q : β → Manager → Prop}

theorem Leaves.of_perform {outcome : Except Fault α} {t : Manager}
    (hrun : step.perform m = (outcome, t)) (hext : t.Extends m) (ht : t.Coherent)
    (h : ∀ a, outcome = .ok a → P a t) : Leaves step m P := by
  constructor
  · rw [hrun]
    exact hext
  · rw [hrun]
    exact ht
  · rw [hrun]
    exact h

theorem Leaves.pure (hm : m.Coherent) {a : α} (h : P a m) : Leaves (Pure.pure a) m P :=
  ⟨Extends.refl m, hm, by rintro b ⟨⟩; exact h⟩

theorem Leaves.throw (hm : m.Coherent) (f : Fault) : Leaves (MonadExcept.throw f) m P :=
  ⟨Extends.refl m, hm, nofun⟩

theorem Leaves.query (hm : m.Coherent) (f : Manager → Except Fault α) :
    Leaves (Step.query f) m fun a t => f t = .ok a :=
  Leaves.of_perform (Step.perform_query f m) (Extends.refl m) hm fun _ ha => ha

theorem Leaves.imp {P' : α → Manager → Prop} (h : Leaves step m P)
    (hP : ∀ a t, t.Extends m → P a t → P' a t) : Leaves step m P' :=
  ⟨h.extends_start, h.coherent, fun a ha => hP a _ h.extends_start (h.answer a ha)⟩

theorem Leaves.bind {next : α → Step Manager β} (hstep : Leaves step m P)
    (hnext : ∀ a t, t.Extends m → t.Coherent → P a t → Leaves (next a) t Q) :
    Leaves (step >>= next) m Q := by
  obtain ⟨hext, ht, hanswer⟩ := hstep
  rcases hrun : step.perform m with ⟨outcome, t⟩
  rw [hrun] at hext ht hanswer
  have hperform := Step.perform_bind step next m
  rw [hrun] at hperform
  cases outcome with
  | error f => exact Leaves.of_perform hperform hext ht nofun
  | ok a =>
    obtain ⟨hext', hu, hanswer'⟩ := hnext a t hext ht (hanswer a rfl)
    exact Leaves.of_perform hperform (hext'.trans hext) hu hanswer'

/-- A computation that makes no node, and one after it. -/
theorem Leaves.after {next : α → Step Manager β} {a : α} {t : Manager}
    (hrun : step.perform m = (.ok a, t)) (hnodes : t.nodes = m.nodes) (h : Leaves (next a) t Q) :
    Leaves (step >>= next) m Q := by
  have hperform := Step.perform_bind step next m
  rw [hrun] at hperform
  exact Leaves.of_perform hperform (h.extends_start.trans (extends_of_nodes_eq hnodes)) h.coherent
    h.answer

theorem Leaves.after_note (hm : m.Coherent) {level : Level} {origin : Origin} {text : Thunk String}
    {next : Unit → Step Manager β}
    (h : ∀ t : Manager, t.Coherent → t.nodes = m.nodes → Leaves (next ()) t Q) :
    Leaves (note level origin text >>= next) m Q :=
  Leaves.after rfl rfl (h _ (hm.withJournal _) rfl)

theorem share_leaves (hm : m.Coherent) (v : Nat) (low high : Ref) :
    Leaves (share v low high) m fun r t => t.Shares v low high r := by
  by_cases heq : low = high
  · unfold share
    rw [if_pos heq]
    exact Leaves.pure hm (by rw [Shares, if_pos heq])
  · have hperform : (share v low high).perform m =
        (.ok (Ref.of (m.nodes.put ⟨v, low, high⟩).1 false), m.put ⟨v, low, high⟩) := by
      unfold share
      rw [if_neg heq]
      rfl
    refine Leaves.of_perform hperform (put_extends m _) (hm.put _) ?_
    rintro r ⟨⟩
    rw [Shares, if_neg heq]
    exact ⟨_, HashCons.value?_put_self m.nodes _, rfl⟩

/-- A node that has been asked for is there afterwards. -/
theorem mkNode_leaves (hm : m.Coherent) (v : Nat) (low high : Ref) :
    Leaves (mkNode v low high) m fun r t => t.Branches v low high r := by
  by_cases hzero : v = 0
  · subst hzero
    exact ⟨Extends.refl m, hm.withJournal _, nofun⟩
  · have hv := Nat.pos_of_ne_zero hzero
    rw [mkNode_of_pos hv]
    refine Leaves.after_note hm fun t ht _ => ?_
    split
    · next hneg =>
      refine Leaves.after_note ht fun u hu _ => ?_
      refine (share_leaves hu v _ _).bind fun r w _ hw hr => Leaves.pure hw ⟨hv, ?_⟩
      rw [hneg]
      show w.Shares v (-low) (-high) (- -r)
      rwa [Ref.neg_neg]
    · next hneg =>
      rw [Bool.not_eq_true] at hneg
      refine (share_leaves ht v _ _).imp fun r w _ hr => ⟨hv, ?_⟩
      rw [hneg]
      exact hr

theorem remember_leaves (hm : m.Coherent) {c : Choice} {r : Ref} (h : m.Composes c r) :
    Leaves (remember c r) m fun _ t => t.Composes c r := by
  have hext : ({ m with computed := m.computed.insert c r } : Manager).Extends m := Extends.refl m
  exact ⟨hext, hm.insert h, fun _ _ => h.mono hext⟩

/-- What the two remaining choices come to and the node that joins them are there afterwards. -/
theorem iteSplit_leaves (hm : m.Coherent) {c : Choice} (hshortcut : c.shortcut = .split)
    (ih : ∀ d : Choice, d.height < c.height → ∀ t : Manager, t.Coherent →
      Leaves (ite d) t fun r u => u.Retraces d r) :
    Leaves (iteSplit c) m fun r t => t.Retraces c r := by
  unfold iteSplit
  refine (Leaves.query hm _).bind fun ⟨v, no, yes⟩ m1 hext1 h1 hsplit => ?_
  dsimp only
  split
  · next hlt =>
    refine (ih no hlt.1 m1 h1).bind fun low m2 hext2 h2 hno => ?_
    refine (ih yes hlt.2 m2 h2).bind fun high m3 hext3 h3 hyes => ?_
    refine (mkNode_leaves h3 v low high).bind fun r m4 hext4 h4 hr => ?_
    refine Leaves.after_note h4 fun m5 h5 hnodes5 => ?_
    -- everything on the way is still there
    have hext54 := extends_of_nodes_eq hnodes5
    have hext52 := hext54.trans (hext4.trans hext3)
    have hcomposes : m5.Composes c.regular.1 r :=
      .of_split (lasting_split _ m1 m5 _ (hext52.trans hext2) hsplit) hlt (hno.mono hext52)
        (hyes.mono (hext54.trans hext4)) (hr.mono hext54)
    exact (remember_leaves h5 hcomposes).bind fun _ m6 _ h6 hkept =>
      Leaves.pure h6 ((retraces_split_iff hshortcut).2 ⟨r, hkept, rfl⟩)
  · exact Leaves.throw h1 _

/-- A choice that has been answered can be retraced in the store that is left.  By induction on the
height. -/
theorem ite_leaves (hm : m.Coherent) (c : Choice) :
    Leaves (ite c) m fun r t => t.Retraces c r := by
  induction hk : c.height using Nat.strongRecOn generalizing c m with
  | _ k ih =>
    subst hk
    cases hshortcut : c.shortcut with
    | answer r =>
      rw [ite_of_answer hshortcut]
      exact Leaves.after_note hm fun t ht _ => Leaves.pure ht (.answer hshortcut)
    | rewrite d =>
      rw [ite_of_rewrite hshortcut]
      refine Leaves.after_note hm fun t ht _ => ?_
      exact (ih _ (Choice.height_lt_of_shortcut hshortcut) ht d rfl).imp fun r u _ hr =>
        .rewrite hshortcut hr
    | split =>
      rw [ite_of_split hshortcut]
      refine Leaves.after_note hm fun m1 h1 _ => ?_
      obtain ⟨m2, hrun, hnodes, h2⟩ := perform_known h1 c.regular.1
      refine Leaves.after hrun hnodes ?_
      cases hfind : m1.computed.find? c.regular.1 with
      | some q =>
        refine Leaves.after_note h2 fun m3 h3 hnodes3 => Leaves.pure h3 ?_
        have hq := (h1.computed _ q hfind).mono (extends_of_nodes_eq (hnodes3.trans hnodes))
        exact (retraces_split_iff hshortcut).2 ⟨q, hq, rfl⟩
      | none => exact iteSplit_leaves h2 hshortcut fun d hd t ht => ih _ hd ht d rfl

end BrakeCheck.Manager
