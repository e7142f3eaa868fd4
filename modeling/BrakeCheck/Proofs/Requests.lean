import BrakeCheck.Proofs.Variables

/-!
# Runs of requests

A store serves requests for functions one after the other.  Requests that name references of the
store, and respect the order of the variables where they name variables, are all answered, and
whatever they are, the store stays well-formed.

## Main definitions

* `Request`, `Request.serve` — what a store can be asked for, and how it answers.
* `Request.Orderly` — a request that keeps to the order of the variables.
* `Manager.serveAll`, `Manager.Orderly` — the answers to a list of requests, and a list that is
  orderly at every step.
* `Manager.Reached` — the stores that orderly requests lead to.

## Main statements

* `Request.serve_spec`, `Manager.serveAll_spec` — the contracts of one request and of a run.
* `Manager.serveAll_append` — what a run has answered, and the nodes it has made, stay when it goes
  on.
-/

namespace BrakeCheck

/-! ### Deciding what a store has -/

namespace Manager

instance (m : Manager) (r : Ref) : Decidable (m.Has r) :=
  inferInstanceAs (Decidable ((m.nodes.value? r.index).isSome = true))

instance (m : Manager) (c : Choice) : Decidable (m.HasAll c) :=
  decidable_of_iff (m.Has c.test ∧ m.Has c.yes ∧ m.Has c.no)
    ⟨fun ⟨htest, hyes, hno⟩ => ⟨htest, hyes, hno⟩, fun h => ⟨h.test, h.yes, h.no⟩⟩

instance (m : Manager) (v : Nat) (r : Ref) : Decidable (m.Below v r) :=
  decidable_of_iff (∀ d ∈ m.nodes.value? r.index, r.index ≠ Ref.terminal → v < d.var)
    ⟨fun h d hr hd => h d hd hr, fun h d hd hr => h d hr hd⟩

instance (m : Manager) (v : Nat) (low high : Ref) : Decidable (m.CanBranch v low high) :=
  decidable_of_iff (0 < v ∧ m.Has low ∧ m.Has high ∧ m.Below v low ∧ m.Below v high)
    ⟨fun ⟨hv, hlow, hhigh, hbelow, hbelow'⟩ => ⟨hv, hlow, hhigh, hbelow, hbelow'⟩,
      fun h => ⟨h.var_pos, h.has_low, h.has_high, h.below_low, h.below_high⟩⟩

end Manager

/-! ### Requests -/

/-- What a store can be asked for. -/
inductive Request where
  /-- The function that is true where a variable is. -/
  | var (v : Nat)
  /-- The function with the given edges at a variable. -/
  | node (v : Nat) (low high : Ref)
  /-- The conjunction of literals. -/
  | cube (ls : List Literal)
  | complement (r : Ref)
  | choice (c : Choice)
  | conj (a b : Ref)
  | disj (a b : Ref)
  | imp (a b : Ref)
  | conjAll (rs : List Ref)
  | disjAll (rs : List Ref)
  /-- The low edge of a function. -/
  | low (r : Ref)
  /-- The high edge of a function. -/
  | high (r : Ref)

namespace Request

open Manager

/-- The answer to a request. -/
def serve : Request → Step Manager Ref
  | .var v => mkVar v
  | .node v r s => mkNode v r s
  | .cube ls => mkCube ls
  | .complement r => pure (-r)
  | .choice c => ite c
  | .conj a b => Manager.conj a b
  | .disj a b => Manager.disj a b
  | .imp a b => Manager.imp a b
  | .conjAll rs => Manager.conjAll rs
  | .disjAll rs => Manager.disjAll rs
  | .low r => Step.query (·.low r)
  | .high r => Step.query (·.high r)

/-- The request keeps to the order of the variables: it names references of the store alone, a
variable that it names stands above them, literals are of distinct variables, and edges are asked
for of nodes that have some. -/
def Orderly (m : Manager) : Request → Prop
  | .var v => 0 < v
  | .node v r s => m.CanBranch v r s
  | .cube ls => (∀ l ∈ ls, 0 < l.var) ∧ ls.Pairwise fun l k => l.var ≠ k.var
  | .complement r => m.Has r
  | .choice c => m.HasAll c
  | .conj a b | .disj a b | .imp a b => m.Has a ∧ m.Has b
  | .conjAll rs | .disjAll rs => ∀ r ∈ rs, m.Has r
  | .low r | .high r => m.Has r ∧ r.index ≠ Ref.terminal

instance decidableOrderly (m : Manager) : (q : Request) → Decidable (q.Orderly m)
  | .var v => inferInstanceAs (Decidable (0 < v))
  | .node v r s => inferInstanceAs (Decidable (m.CanBranch v r s))
  | .cube ls => inferInstanceAs
      (Decidable ((∀ l ∈ ls, 0 < l.var) ∧ ls.Pairwise fun l k => l.var ≠ k.var))
  | .complement r => inferInstanceAs (Decidable (m.Has r))
  | .choice c => inferInstanceAs (Decidable (m.HasAll c))
  | .conj a b | .disj a b | .imp a b => inferInstanceAs (Decidable (m.Has a ∧ m.Has b))
  | .conjAll rs | .disjAll rs => inferInstanceAs (Decidable (∀ r ∈ rs, m.Has r))
  | .low r | .high r => inferInstanceAs (Decidable (m.Has r ∧ r.index ≠ Ref.terminal))

theorem serve_grows (q : Request) : Step.Grows q.serve := by
  cases q with
  | var v => exact mkVar_grows v
  | node v low high => exact mkNode_grows v low high
  | cube ls => exact mkCube_grows ls
  | complement r => exact Step.Grows.pure _
  | choice c => exact ite_grows c
  | conj a b => exact conj_grows a b
  | disj a b => exact disj_grows a b
  | imp a b => exact imp_grows a b
  | conjAll rs => exact conjFrom_grows rs _
  | disjAll rs => exact disjFrom_grows rs _
  | low r => exact Step.Grows.query _
  | high r => exact Step.Grows.query _

/-- A reference that is read off the store. -/
theorem query_spec {m : Manager} (wf : m.WellFormed) {f : Manager → Except Fault Ref} {r : Ref}
    (hf : f m = .ok r) (hr : m.Has r) :
    Step.Yields (Step.query f) m fun q t => t.WellFormed ∧ t.Has q :=
  fun _ => ⟨r, m, by rw [Step.perform_query, hf], Extends.refl m, wf, hr⟩

/-- The contract of a request: if it is orderly, it is answered with a reference of the store, which
stays well-formed. -/
theorem serve_spec {m : Manager} (wf : m.WellFormed) {q : Request} (hq : q.Orderly m) :
    Step.Yields q.serve m fun r t => t.WellFormed ∧ t.Has r := by
  -- for most requests this is a part of what the operation promises
  have of_denotes : ∀ {step : Step Manager Ref} {f : (Nat → Bool) → Bool},
      (Step.Yields step m fun r t => t.WellFormed ∧ t.Denotes r f) →
      Step.Yields step m fun r t => t.WellFormed ∧ t.Has r :=
    fun h => h.imp fun _ _ _ ⟨wft, hr⟩ => ⟨wft, hr.has⟩
  cases q with
  | var v => exact (mkVar_spec wf hq).imp fun r t _ ⟨wft, hr, _⟩ => ⟨wft, hr.has⟩
  | node v low high => exact (mkNode_spec wf hq).imp fun r t _ ⟨wft, hr⟩ => ⟨wft, hr.has⟩
  | cube ls => exact of_denotes (mkCube_spec wf hq.1 hq.2)
  | complement r => exact Step.Yields.pure ⟨wf, has_neg.2 hq⟩
  | choice c => exact (ite_spec wf hq).imp fun r t _ ⟨wft, hr⟩ => ⟨wft, hr.has⟩
  | conj a b => exact of_denotes (conj_spec wf hq.1 hq.2)
  | disj a b => exact of_denotes (disj_spec wf hq.1 hq.2)
  | imp a b => exact of_denotes (imp_spec wf hq.1 hq.2)
  | conjAll rs => exact of_denotes (conjAll_spec wf hq)
  | disjAll rs => exact of_denotes (disjAll_spec wf hq)
  | low r =>
    obtain ⟨n, hn⟩ := Option.isSome_iff_exists.1 hq.1
    exact query_spec wf (low_eq_ok hn) (Cofactors.edges wf hq.2 hn).1.branch.has_low
  | high r =>
    obtain ⟨n, hn⟩ := Option.isSome_iff_exists.1 hq.1
    exact query_spec wf (high_eq_ok hn) (Cofactors.edges wf hq.2 hn).1.branch.has_high

/-- A request keeps what the single steps keep, whatever the variables are. -/
theorem serve_keeps {I : Manager → Prop} {P : Nat → Prop} (hI : Kept I P) (hP : ∀ v, P v)
    (q : Request) : Step.Keeps I q.serve := by
  have query_keeps : ∀ f : Manager → Except Fault Ref, Step.Keeps I (Step.query f) := by
    intro f m hm
    rw [Step.perform_query]
    exact hm
  cases q with
  | var v => exact mkVar_keeps hI (hP v)
  | node v low high => exact mkNode_keeps hI (hP v) low high
  | cube ls => exact mkCube_keeps hI fun l _ => hP l.var
  | complement r => exact Step.Keeps.pure _
  | choice c => exact ite_keeps hI c
  | conj a b => exact conj_keeps hI a b
  | disj a b => exact disj_keeps hI a b
  | imp a b => exact imp_keeps hI a b
  | conjAll rs => exact conjFrom_keeps hI rs _
  | disjAll rs => exact disjFrom_keeps hI rs _
  | low r => exact query_keeps _
  | high r => exact query_keeps _

end Request

namespace Manager

/-! ### Runs -/

/-- The answers to requests, one after the other. -/
def serveAll (qs : List Request) : Step Manager (List Ref) := qs.mapM Request.serve

theorem serveAll_cons (q : Request) (qs : List Request) :
    serveAll (q :: qs) = do
      let r ← q.serve
      return r :: (← serveAll qs) := List.mapM_cons

/-- Every one of the requests is orderly when its turn comes. -/
def Orderly (m : Manager) : List Request → Prop
  | [] => True
  | q :: qs => q.Orderly m ∧ (q.serve.perform m).2.Orderly qs

instance decidableOrderly (m : Manager) : (qs : List Request) → Decidable (m.Orderly qs)
  | [] => inferInstanceAs (Decidable True)
  | q :: qs =>
    have := decidableOrderly (q.serve.perform m).2 qs
    inferInstanceAs (Decidable (q.Orderly m ∧ (q.serve.perform m).2.Orderly qs))

theorem serveAll_grows (qs : List Request) : Step.Grows (serveAll qs) :=
  Step.Grows.mapM Request.serve_grows qs

/-- The contract of a run: orderly requests are all answered, with references of the store. -/
theorem serveAll_spec {m : Manager} (wf : m.WellFormed) {qs : List Request}
    (h : m.Orderly qs) :
    Step.Yields (serveAll qs) m fun rs t => t.WellFormed ∧ ∀ r ∈ rs, t.Has r := by
  induction qs generalizing m with
  | nil => exact Step.Yields.pure ⟨wf, by simp⟩
  | cons q qs ih =>
    obtain ⟨hq, hqs⟩ := h
    rw [serveAll_cons]
    intro hfit
    have hfirst : (q.serve.perform m).2.Addressable := Step.addressable_of_bind
      (fun r => (serveAll_grows qs).bind fun rs => Step.Grows.pure _) hfit
    obtain ⟨r, u, hrun, hext, wfu, hr⟩ := Request.serve_spec wf hq hfirst
    rw [hrun] at hqs
    refine Step.Yields.after hrun hext ((ih wfu hqs).bind (fun rs => Step.Grows.pure _)
      fun rs t hext' ⟨wft, hrs⟩ => Step.Yields.pure ⟨wft, ?_⟩) hfit
    exact List.forall_mem_cons.2 ⟨hr.mono hext', hrs⟩

theorem serveAll_keeps {I : Manager → Prop} {P : Nat → Prop} (hI : Kept I P) (hP : ∀ v, P v)
    (qs : List Request) : Step.Keeps I (serveAll qs) :=
  Step.Keeps.mapM (Request.serve_keeps hI hP) qs

/-- A longer run begins with the shorter one. -/
theorem serveAll_append (before after : List Request) :
    serveAll (before ++ after) = do
      let rs ← serveAll before
      return rs ++ (← serveAll after) := List.mapM_append

theorem Orderly.left {before after : List Request} {m : Manager} (h : m.Orderly (before ++ after)) :
    m.Orderly before := by
  induction before generalizing m with
  | nil => trivial
  | cons q qs ih => exact ⟨h.1, ih h.2⟩

/-! ### Stores of runs -/

/-- The stores that runs of orderly requests lead to. -/
inductive Reached : Manager → Prop where
  | create {bits : Nat} {journal : Journal} {m : Manager} (h : create bits journal = .ok m) :
    Reached m
  | serve {m : Manager} (h : Reached m) {q : Request} (hq : q.Orderly m) :
    Reached (q.serve.perform m).2

/-- A store that can be reached is well-formed, as long as it can be addressed. -/
theorem Reached.wellFormed {m : Manager} (h : m.Reached) (hfit : m.Addressable) :
    m.WellFormed := by
  induction h with
  | create h => exact wellFormed_of_create h
  | serve h hq ih =>
    have wf := ih ((Request.serve_grows _).addressable hfit)
    obtain ⟨_, t, hrun, -, wft, -⟩ := Request.serve_spec wf hq hfit
    rw [hrun]
    exact wft

end Manager

end BrakeCheck
