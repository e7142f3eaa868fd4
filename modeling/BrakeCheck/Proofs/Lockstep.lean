import BrakeCheck.Diagram.Reach
import BrakeCheck.Proofs.Requests
import BrakeCheck.Proofs.Retrace

/-!
# Stores in lockstep

Two stores that hold the same nodes under the same indices give the same answers and go on to hold
the same nodes, however different their buckets and their computed tables are.  The one store may
know a result that the other one has forgotten.  What is known can be retraced in the nodes, so
that the other store computes it again without making a node.  What cannot be retraced is known to
neither, and both compute it in the same steps.

## Main definitions

* `Step.Agrees` — a computation has the same outcome from two states, and leaves related states.
* `Step.Lockstep` — it does so from any two related states.
* `Manager.Alike` — two coherent stores with the same nodes.

## Main statements

* `Manager.ite_lockstep` — a choice from stores with the same nodes.
* `Manager.serveAll_lockstep` — runs of requests.
-/

namespace BrakeCheck

/-! ### Two runs of one computation -/

namespace Step

variable {σ α β : Type}

/-- The computation has the same outcome from `s` and from `t`, be it an answer or a fault, and
leaves states that are related by `R`. -/
structure Agrees (R : σ → σ → Prop) (step : Step σ α) (s t : σ) : Prop where
  outcome : (step.perform t).1 = (step.perform s).1
  related : R (step.perform s).2 (step.perform t).2

/-- The runs from related states agree. -/
def Lockstep (R : σ → σ → Prop) (step : Step σ α) : Prop := ∀ s t, R s t → Agrees R step s t

variable {R S : σ → σ → Prop} {step : Step σ α} {s t : σ}

theorem Agrees.imp (h : Agrees R step s t) (hRS : ∀ u w, R u w → S u w) : Agrees S step s t :=
  ⟨h.outcome, hRS _ _ h.related⟩

theorem Agrees.of_perform {answer : Except Fault α} {u w : σ} (hs : step.perform s = (answer, u))
    (ht : step.perform t = (answer, w)) (h : R u w) : Agrees R step s t := by
  constructor
  · rw [hs, ht]
  · rw [hs, ht]
    exact h

theorem Agrees.exists_perform (h : Agrees R step s t) :
    ∃ outcome u w, step.perform s = (outcome, u) ∧ step.perform t = (outcome, w) ∧ R u w :=
  ⟨(step.perform s).1, (step.perform s).2, (step.perform t).2, rfl, Prod.ext h.outcome rfl,
    h.related⟩

theorem Agrees.pure (h : R s t) (a : α) : Agrees R (Pure.pure a) s t := ⟨rfl, h⟩

/-- Two computations one after the other: if the first one ends with a fault it does so from both
states, and otherwise the second one starts with the same answer. -/
theorem Agrees.bind {next : α → Step σ β} (hstep : Agrees R step s t)
    (hRS : ∀ u w, R u w → S u w) (hnext : ∀ a u w, R u w → Agrees S (next a) u w) :
    Agrees S (step >>= next) s t := by
  obtain ⟨outcome, u, w, hs, ht, hrelated⟩ := hstep.exists_perform
  have hperform := perform_bind step next s
  have hperform' := perform_bind step next t
  rw [hs] at hperform
  rw [ht] at hperform'
  cases outcome with
  | error f => exact Agrees.of_perform hperform hperform' (hRS u w hrelated)
  | ok a =>
    obtain ⟨outcome', u', w', hu, hw, hrelated'⟩ := (hnext a u w hrelated).exists_perform
    exact Agrees.of_perform (hperform.trans hu) (hperform'.trans hw) hrelated'

/-- Two computations one after the other, the first of which has a known outcome from both
states. -/
theorem Agrees.after {next : α → Step σ β} {a : α} {u w : σ} (hs : step.perform s = (.ok a, u))
    (ht : step.perform t = (.ok a, w)) (h : Agrees R (next a) u w) :
    Agrees R (step >>= next) s t := by
  obtain ⟨outcome, u', w', hu, hw, hrelated⟩ := h.exists_perform
  have hperform : (step >>= next).perform s = (outcome, u') := by rw [perform_bind, hs, ← hu]
  have hperform' : (step >>= next).perform t = (outcome, w') := by rw [perform_bind, ht, ← hw]
  exact Agrees.of_perform hperform hperform' hrelated

theorem Lockstep.pure (a : α) : Lockstep R (Pure.pure a : Step σ α) :=
  fun _ _ h => Agrees.pure h a

theorem Lockstep.bind {next : α → Step σ β} (hstep : Lockstep R step)
    (hnext : ∀ a, Lockstep R (next a)) : Lockstep R (step >>= next) :=
  fun s t h => (hstep s t h).bind (fun _ _ h => h) hnext

theorem Lockstep.query {f : σ → Except Fault α} (hf : ∀ s t, R s t → f t = f s) :
    Lockstep R (Step.query f) := fun s t h =>
  Agrees.of_perform (perform_query f s) (by rw [perform_query, hf s t h]) h

theorem Lockstep.throw (f : Fault) : Lockstep R (MonadExcept.throw f : Step σ α) :=
  fun _ _ h => ⟨rfl, h⟩

theorem Lockstep.modifyGet {f : σ → α × σ}
    (hf : ∀ s t, R s t → (f t).1 = (f s).1 ∧ R (f s).2 (f t).2) :
    Lockstep R (modifyGet f : Step σ α) :=
  fun s t h => ⟨congrArg Except.ok (hf s t h).1, (hf s t h).2⟩

theorem Lockstep.modify {f : σ → σ} (hf : ∀ s t, R s t → R (f s) (f t)) :
    Lockstep R (modify f : Step σ Unit) := fun s t h => ⟨rfl, hf s t h⟩

/-- What comes after a look at the state may depend on what is the same in related states. -/
theorem Lockstep.get_bind {next : σ → Step σ β} (hsame : ∀ s t, R s t → next t = next s)
    (hnext : ∀ s, Lockstep R (next s)) : Lockstep R (get >>= next) := by
  intro s t h
  obtain ⟨outcome, u, w, hu, hw, hrelated⟩ := (hnext s s t h).exists_perform
  have hperform : (get >>= next).perform s = (outcome, u) := by rw [perform_bind, perform_get, ← hu]
  have hperform' : (get >>= next).perform t = (outcome, w) := by
    rw [perform_bind, perform_get, ← hw, ← hsame s t h]
  exact Agrees.of_perform hperform hperform' hrelated

theorem Lockstep.ite {p : Prop} [Decidable p] {yes no : Step σ α} (hyes : Lockstep R yes)
    (hno : Lockstep R no) : Lockstep R (if p then yes else no) := by
  split
  · exact hyes
  · exact hno

theorem Lockstep.collect {f : α → Step σ (List β)} (hf : ∀ a, Lockstep R (f a)) :
    ∀ as, Lockstep R (Step.collect f as)
  | [] => Lockstep.pure _
  | a :: as => (hf a).bind fun _ => (Lockstep.collect hf as).bind fun _ => Lockstep.pure _

theorem Lockstep.foldlM {f : β → α → Step σ β} (hf : ∀ acc a, Lockstep R (f acc a))
    (as : List α) : ∀ acc, Lockstep R (as.foldlM f acc) := by
  induction as with
  | nil => exact fun acc => Lockstep.pure acc
  | cons a as ih =>
    intro acc
    rw [List.foldlM_cons]
    exact (hf acc a).bind ih

theorem Lockstep.mapM {f : α → Step σ β} (hf : ∀ a, Lockstep R (f a)) (as : List α) :
    Lockstep R (as.mapM f) := by
  induction as with
  | nil => exact Lockstep.pure _
  | cons a as ih =>
    rw [List.mapM_cons]
    exact (hf a).bind fun _ => ih.bind fun _ => Lockstep.pure _

end Step

namespace Manager

open Step

variable {m n : Manager}

/-! ### Stores with the same nodes -/

/-- The stores hold the same nodes under the same indices. -/
def SameNodes (m n : Manager) : Prop := n.nodes.values = m.nodes.values

/-- Coherent stores with the same nodes; their buckets and computed tables may differ. -/
structure Alike (m n : Manager) : Prop where
  left : m.Coherent
  right : n.Coherent
  same : m.SameNodes n

namespace SameNodes

theorem symm (h : m.SameNodes n) : n.SameNodes m := Eq.symm h

theorem value?_eq (h : m.SameNodes n) (i : Nat) : n.nodes.value? i = m.nodes.value? i := by
  cases i with
  | zero => rfl
  | succ i => rw [HashCons.value?, HashCons.value?, h]

theorem right_extends (h : m.SameNodes n) : n.Extends m := by
  intro i d hd
  rw [h.value?_eq, hd]

/-! #### What is read off the nodes -/

theorem value_eq (h : m.SameNodes n) (i : Nat) : n.nodes.value i = m.nodes.value i := by
  unfold HashCons.value
  rw [h.value?_eq]

theorem node_eq (h : m.SameNodes n) : n.node = m.node := funext fun r => h.value_eq r.index

theorem var_eq (h : m.SameNodes n) (r : Ref) : n.var r = m.var r := by
  rw [var, var, h.node_eq]

theorem low_eq (h : m.SameNodes n) (r : Ref) : n.low r = m.low r := by
  rw [low, low, h.node_eq]

theorem high_eq (h : m.SameNodes n) (r : Ref) : n.high r = m.high r := by
  rw [high, high, h.node_eq]

theorem cofactors_eq (h : m.SameNodes n) (r : Ref) (v : Nat) :
    n.cofactors r v = m.cofactors r v := by
  simp only [cofactors, h.var_eq, h.low_eq, h.high_eq]

theorem split_eq (h : m.SameNodes n) (c : Choice) : n.split c = m.split c := by
  simp only [split, topVar, h.var_eq, h.cofactors_eq]

theorem pathFrom_eq (h : m.SameNodes n) (r : Ref) : n.pathFrom r = m.pathFrom r := by
  induction hk : r.height using Nat.strongRecOn generalizing r with
  | _ k ih =>
    subst hk
    -- the path goes on in the same way from the end of the edge
    have hrest : ∀ (l : Literal) (next : Ref),
        (if next.height < r.height then do return l :: (← n.pathFrom next)
          else throw .childNotOlder : Except Fault (List Literal)) =
        if next.height < r.height then do return l :: (← m.pathFrom next)
          else throw .childNotOlder := by
      intro l next
      split
      · next hlt => rw [ih _ hlt next rfl]
      · rfl
    rw [pathFrom, pathFrom]
    simp only [h.var_eq, h.low_eq, h.high_eq, hrest]

theorem path_eq (h : m.SameNodes n) (r : Ref) : n.path r = m.path r := by
  rw [path, path, h.pathFrom_eq]

theorem visit_eq (h : m.SameNodes n) (seen : Array Bool) (queue later : List Nat) :
    n.visit seen queue later = m.visit seen queue later := by
  fun_induction visit m seen queue later with
  | case1 seen => rw [visit]
  | case2 seen i later ih => rw [visit, ih]
  | case3 seen i queue later hi hseen ih => rw [visit, dif_pos hi, dif_pos hseen, ih]
  | case4 seen i queue later hi hseen ih =>
    rw [visit, dif_pos hi, dif_neg hseen, h.value_eq, funext ih]
  | case5 seen i queue later hi => rw [visit, dif_neg hi]

theorem extent_eq (h : m.SameNodes n) (r : Ref) : n.extent r = m.extent r := by
  have hmarks : n.freshMarks = m.freshMarks := by
    have hsize : n.nodes.size = m.nodes.size := congrArg Array.size h
    simp only [freshMarks, hsize]
  rw [extent, extent, descendants, descendants, hmarks, h.visit_eq]

end SameNodes

/-- Stores with other journals. -/
theorem Alike.withJournal (h : m.Alike n) (journal journal' : Journal) :
    Alike { m with journal } { n with journal := journal' } :=
  ⟨h.left.withJournal _, h.right.withJournal _, h.same⟩

/-- A computation after a report, whatever the report is. -/
theorem after_note {α : Type} {R : Manager → Manager → Prop} {level : Level} {origin : Origin}
    {text : Thunk String} {next : Unit → Step Manager α}
    (h : ∀ journal journal' : Journal,
      Agrees R (next ()) { m with journal } { n with journal := journal' }) :
    Agrees R (note level origin text >>= next) m n := Agrees.after rfl rfl (h _ _)

/-- Runs that leave the same nodes leave alike stores, if they leave coherent ones. -/
theorem Alike.of_same {α : Type} {step : Step Manager α} {P : α → Manager → Prop}
    (h : Agrees SameNodes step m n) (hm : Leaves step m P) (hn : Leaves step n P) :
    Agrees Alike step m n :=
  ⟨h.outcome, hm.coherent, hn.coherent, h.related⟩

/-! ### Making nodes -/

theorem note_lockstep (level : Level) (origin : Origin) (text : Thunk String) :
    Lockstep Alike (note level origin text) :=
  fun _ _ h => ⟨rfl, h.withJournal _ _⟩

theorem noteAll_lockstep (level : Level) (origin : Origin) (texts : Thunk (List String)) :
    Lockstep Alike (noteAll level origin texts) :=
  fun _ _ h => ⟨rfl, h.withJournal _ _⟩

/-- Both stores find a node under the same index, or neither of them does. -/
theorem Alike.find?_eq (h : m.Alike n) {d : Node} (hd : 0 < d.var) :
    n.nodes.find? d = m.nodes.find? d := by
  ext i
  have find?_iff : ∀ {m : Manager}, m.Coherent →
      (m.nodes.find? d = some i ↔ m.nodes.value? i = some d) := fun hm =>
    ⟨HashCons.value?_of_find?, hm.found i d hd⟩
  rw [find?_iff h.right, find?_iff h.left, h.same.value?_eq]

/-- So a node that is put into both gets the same index in both. -/
theorem Alike.put (h : m.Alike n) {d : Node} (hd : 0 < d.var) :
    (n.nodes.put d).1 = (m.nodes.put d).1 ∧ (m.put d).SameNodes (n.put d) := by
  have hfind := h.find?_eq hd
  have hvalues : n.nodes.values = m.nodes.values := h.same
  unfold SameNodes Manager.put
  cases hm : m.nodes.find? d with
  | some i =>
    rw [hm] at hfind
    rw [HashCons.put_of_find? hm, HashCons.put_of_find? hfind]
    exact ⟨rfl, hvalues⟩
  | none =>
    rw [hm] at hfind
    simp [HashCons.put, HashCons.add, hm, hfind, hvalues]

theorem share_lockstep {v : Nat} (hv : 0 < v) (low high : Ref) :
    Lockstep Alike (share v low high) := by
  intro m n h
  refine Alike.of_same ?_ (share_leaves h.left v low high) (share_leaves h.right v low high)
  unfold share
  split
  · exact Agrees.pure h.same _
  · obtain ⟨hindex, hnodes⟩ := h.put (d := ⟨v, low, high⟩) hv
    exact ⟨congrArg (fun i => Except.ok (Ref.of i false)) hindex, hnodes⟩

theorem mkNode_lockstep (v : Nat) (low high : Ref) : Lockstep Alike (mkNode v low high) := by
  by_cases hzero : v = 0
  · subst hzero
    exact fun _ _ h => ⟨rfl, h.withJournal _ _⟩
  · have hv := Nat.pos_of_ne_zero hzero
    rw [mkNode_of_pos hv]
    refine (note_lockstep _ _ _).bind fun _ => Lockstep.ite ?_ (share_lockstep hv _ _)
    exact (note_lockstep _ _ _).bind fun _ => (share_lockstep hv _ _).bind fun _ => Lockstep.pure _

theorem mkVar_lockstep (v : Nat) : Lockstep Alike (mkVar v) := by
  by_cases hzero : v = 0
  · subst hzero
    exact fun _ _ h => ⟨rfl, h⟩
  · simp only [mkVar, hzero, if_false]
    exact mkNode_lockstep _ _ _

/-! ### Choices -/

/-- A choice that is split goes on in the same way in both stores, if the remaining choices do. -/
theorem iteSplit_same (h : m.Alike n) {c : Choice}
    (ih : ∀ d : Choice, d.height < c.height → Lockstep Alike (ite d)) :
    Agrees SameNodes (iteSplit c) m n := by
  unfold iteSplit
  refine (Lockstep.query (R := Alike) (fun _ _ h => h.same.split_eq _) m n h).bind
    (fun _ _ h => h.same) fun ⟨v, no, yes⟩ t u htu => ?_
  dsimp only
  split
  · next hlt =>
    refine (ih no hlt.1 t u htu).bind (fun _ _ h => h.same) fun low t u htu => ?_
    refine (ih yes hlt.2 t u htu).bind (fun _ _ h => h.same) fun high t u htu => ?_
    refine (mkNode_lockstep v low high t u htu).bind (fun _ _ h => h.same) fun r t u htu => ?_
    -- keeping the result changes no node
    exact ⟨rfl, htu.same⟩
  · exact ⟨rfl, htu.same⟩

/-- A choice that neither store knows is split in both. -/
theorem ite_of_unknown (h : m.Alike n) {c : Choice} (hshortcut : c.shortcut = .split)
    (hm : m.computed.find? c.regular.1 = none) (hn : n.computed.find? c.regular.1 = none)
    (ih : ∀ d : Choice, d.height < c.height → Lockstep Alike (ite d)) :
    Agrees SameNodes (ite c) m n := by
  rw [ite_of_split hshortcut]
  refine after_note fun journal journal' => ?_
  obtain ⟨t, ht, hnodes, hcoherent⟩ := perform_known (h.left.withJournal journal) c.regular.1
  obtain ⟨u, hu, hnodes', hcoherent'⟩ := perform_known (h.right.withJournal journal') c.regular.1
  dsimp only at ht hu
  rw [hm] at ht
  rw [hn] at hu
  refine Agrees.after ht hu (iteSplit_same ⟨hcoherent, hcoherent', ?_⟩ ih)
  show u.nodes.values = t.nodes.values
  rw [hnodes, hnodes']
  exact h.same

/-- A choice that can be retraced is answered so in both stores, known or not. -/
theorem ite_of_retraced (h : m.Alike n) {c : Choice} {r : Ref} (hr : m.Retraces c r) :
    Agrees SameNodes (ite c) m n := by
  obtain ⟨t, hrun, hnodes, -⟩ := ite_of_retraces hr m h.left rfl
  obtain ⟨u, hrun', hnodes', -⟩ := ite_of_retraces (hr.mono h.same.right_extends) n h.right rfl
  refine Agrees.of_perform hrun hrun' ?_
  show u.nodes.values = t.nodes.values
  rw [hnodes, hnodes']
  exact h.same

/-- A choice has the same result in both stores, and leaves them with the same nodes.  By induction
on the height: a result that can be retraced is found in both, and one that cannot is known in
neither. -/
theorem ite_lockstep (c : Choice) : Lockstep Alike (ite c) := by
  induction hk : c.height using Nat.strongRecOn generalizing c with
  | _ k ih =>
    subst hk
    intro m n h
    refine Alike.of_same ?_ (ite_leaves h.left c) (ite_leaves h.right c)
    by_cases hretraced : ∃ r, m.Retraces c r
    · obtain ⟨r, hr⟩ := hretraced
      exact ite_of_retraced h hr
    · cases hshortcut : c.shortcut with
      | answer r => exact absurd ⟨r, .answer hshortcut⟩ hretraced
      | rewrite d =>
        rw [ite_of_rewrite hshortcut]
        have hd := ih _ (Choice.height_lt_of_shortcut hshortcut) d rfl
        exact (((note_lockstep _ _ _).bind fun _ => hd) m n h).imp fun _ _ h => h.same
      | split =>
        have unknown : ∀ {t : Manager}, t.Coherent → m.Extends t →
            t.computed.find? c.regular.1 = none := by
          intro t ht hext
          cases hfind : t.computed.find? c.regular.1 with
          | none => rfl
          | some q =>
            have hq := (ht.computed _ q hfind).mono hext
            exact absurd ⟨_, (retraces_split_iff hshortcut).2 ⟨q, hq, rfl⟩⟩ hretraced
        exact ite_of_unknown h hshortcut (unknown h.left (Extends.refl m))
          (unknown h.right h.same.symm.right_extends) fun d hd => ih _ hd d rfl

/-! ### Connectives and cubes -/

theorem conj_lockstep (a b : Ref) : Lockstep Alike (conj a b) := ite_lockstep _

theorem disj_lockstep (a b : Ref) : Lockstep Alike (disj a b) := ite_lockstep _

theorem imp_lockstep (a b : Ref) : Lockstep Alike (imp a b) := ite_lockstep _

theorem conjFrom_lockstep (rs : List Ref) : ∀ acc, Lockstep Alike (conjFrom acc rs) := by
  induction rs with
  | nil => exact fun acc => Lockstep.pure acc
  | cons r rs ih =>
    intro acc
    exact (conj_lockstep _ _).bind fun acc => Lockstep.ite (Lockstep.pure _) (ih acc)

theorem disjFrom_lockstep (rs : List Ref) : ∀ acc, Lockstep Alike (disjFrom acc rs) := by
  induction rs with
  | nil => exact fun acc => Lockstep.pure acc
  | cons r rs ih =>
    intro acc
    exact (disj_lockstep _ _).bind fun acc => Lockstep.ite (Lockstep.pure _) (ih acc)

theorem stack_lockstep (ls : List Literal) : ∀ r, Lockstep Alike (stack r ls) := by
  induction ls with
  | nil => exact fun r => Lockstep.pure r
  | cons l ls ih =>
    intro r
    exact (Lockstep.ite (mkNode_lockstep _ _ _) (mkNode_lockstep _ _ _)).bind ih

theorem mkCube_lockstep (ls : List Literal) : Lockstep Alike (mkCube ls) :=
  (note_lockstep _ _ _).bind fun _ => stack_lockstep _ _

theorem block_lockstep (r : Ref) (ls : List Literal) : Lockstep Alike (block r ls) :=
  (mkCube_lockstep ls).bind fun _ => conj_lockstep _ _

/-! ### Runs of requests -/

theorem serve_lockstep (q : Request) : Lockstep Alike q.serve := by
  cases q with
  | var v => exact mkVar_lockstep v
  | node v low high => exact mkNode_lockstep v low high
  | cube ls => exact mkCube_lockstep ls
  | complement r => exact Lockstep.pure _
  | choice c => exact ite_lockstep c
  | conj a b => exact conj_lockstep a b
  | disj a b => exact disj_lockstep a b
  | imp a b => exact imp_lockstep a b
  | conjAll rs => exact conjFrom_lockstep rs _
  | disjAll rs => exact disjFrom_lockstep rs _
  | low r => exact Lockstep.query fun _ _ h => h.same.low_eq r
  | high r => exact Lockstep.query fun _ _ h => h.same.high_eq r

/-- Runs of requests stay in lockstep, orderly or not. -/
theorem serveAll_lockstep (qs : List Request) : Lockstep Alike (serveAll qs) :=
  Lockstep.mapM serve_lockstep qs

/-- New stores are alike, whatever the size of their tables and their journals are. -/
theorem alike_of_create {bits bits' : Nat} {journal journal' : Journal}
    (hm : create bits journal = .ok m) (hn : create bits' journal' = .ok n) : m.Alike n := by
  refine ⟨coherent_of_create hm, coherent_of_create hn, ?_⟩
  rw [eq_of_create hm, eq_of_create hn]
  rfl

end Manager

end BrakeCheck
