import BrakeCheck.Fault

/-!
# Computations on growing states

The stores of a run only grow: whatever a computation finds in its state is still there when it
ends, also when it ends with a fault.  References have a fixed width, so a store is of use only as
long as everything in it can be referred to, and a store that has grown beyond that stays so.
This is why the contract of a computation is stated under the condition that the state it
*leaves* can be addressed: all states on the way to it can then be addressed as well.

## Main definitions

* `Growing σ` — when a state extends an earlier one, and when all of it can be addressed.
* `Step.Grows` — a computation under which every state is extended, whatever happens.
* `Step.Yields` — a computation answers, without a fault, with an answer and a state as promised.
* `Step.Ends` — it does so however large the state has become.
* `Step.Stays` — a computation has an answer and keeps an invariant.

## Main statements

* `Step.Yields.bind`, `Step.Ends.bind` — the contract of two computations, one after the other.
* `Step.Yields.pair` — two computations, and a third one that uses both of their answers.
* `Step.Stays.yields` — a computation that keeps to states that can be addressed keeps its contract.
-/

namespace BrakeCheck

/-- States that grow in the course of a run. -/
class Growing (σ : Type) where
  /-- The first state has all that the second one has. -/
  Extends : σ → σ → Prop
  refl : ∀ s, Extends s s
  trans : ∀ {u t s}, Extends u t → Extends t s → Extends u s
  /-- All that a state has can be referred to. -/
  Addressable : σ → Prop
  addressable_of_extends : ∀ {t s}, Extends t s → Addressable t → Addressable s

namespace Step

open Growing

variable {σ α β : Type} [Growing σ]

/-- A computation under which every state is extended, also when it stops with a fault. -/
def Grows (step : Step σ α) : Prop := ∀ s, Extends (step.perform s).2 s

/-- Unless the state it leaves has become too large to be addressed, the computation started in
`s` has an answer, and the answer and the state it leaves are as `P` says. -/
def Yields (step : Step σ α) (s : σ) (P : α → σ → Prop) : Prop :=
  Addressable (step.perform s).2 →
    ∃ a t, step.perform s = (.ok a, t) ∧ Extends t s ∧ P a t

/-! ### Growth -/

theorem Grows.pure (a : α) : Grows (Pure.pure a : Step σ α) := fun s => refl s

theorem Grows.throw (f : Fault) : Grows (MonadExcept.throw f : Step σ α) := fun s => refl s

theorem Grows.query (f : σ → Except Fault α) : Grows (Step.query f) := by
  intro s
  rw [perform_query]
  exact refl s

theorem Grows.bind {step : Step σ α} {next : α → Step σ β} (hstep : Grows step)
    (hnext : ∀ a, Grows (next a)) : Grows (step >>= next) := by
  intro s
  rw [perform_bind]
  have h := hstep s
  rcases hrun : step.perform s with ⟨answer, t⟩
  rw [hrun] at h
  cases answer with
  | error f => exact h
  | ok a => exact trans (hnext a t) h

theorem Grows.ite {p : Prop} [Decidable p] {yes no : Step σ α} (hyes : Grows yes)
    (hno : Grows no) : Grows (if p then yes else no) := by
  split
  · exact hyes
  · exact hno

theorem Grows.collect {f : α → Step σ (List β)} (hf : ∀ a, Grows (f a)) :
    ∀ as, Grows (Step.collect f as)
  | [] => Grows.pure _
  | a :: as => (hf a).bind fun _ => (Grows.collect hf as).bind fun _ => Grows.pure _

theorem Grows.mapM {f : α → Step σ β} (hf : ∀ a, Grows (f a)) (as : List α) :
    Grows (as.mapM f) := by
  induction as with
  | nil => exact Grows.pure _
  | cons a as ih =>
    rw [List.mapM_cons]
    exact (hf a).bind fun _ => ih.bind fun _ => Grows.pure _

/-! ### Contracts -/

variable {step : Step σ α} {s : σ} {P : α → σ → Prop}

theorem Yields.pure {a : α} (h : P a s) : Yields (Pure.pure a : Step σ α) s P :=
  fun _ => ⟨a, s, rfl, refl s, h⟩

/-- A promise may be weakened to whatever follows from it in a state that extends the first one. -/
theorem Yields.imp {Q : α → σ → Prop} (h : Yields step s P)
    (hPQ : ∀ a t, Extends t s → P a t → Q a t) : Yields step s Q := by
  intro hfit
  obtain ⟨a, t, hrun, hext, hP⟩ := h hfit
  exact ⟨a, t, hrun, hext, hPQ a t hext hP⟩

/-- A computation keeps all promises that are made of it. -/
theorem Yields.and {Q : α → σ → Prop} (h : Yields step s P) (h' : Yields step s Q) :
    Yields step s fun a t => P a t ∧ Q a t := by
  intro hfit
  obtain ⟨a, t, hrun, hext, hP⟩ := h hfit
  obtain ⟨b, u, hrun', -, hQ⟩ := h' hfit
  cases hrun.symm.trans hrun'
  exact ⟨a, t, hrun, hext, hP, hQ⟩

/-- A run that has left a state that can be addressed has ended with an answer as promised. -/
theorem Yields.answer_of_perform (h : Yields step s P) {outcome : Except Fault α} {t : σ}
    (hrun : step.perform s = (outcome, t)) (hfit : Addressable t) :
    ∃ a, outcome = .ok a ∧ P a t := by
  unfold Yields at h
  rw [hrun] at h
  obtain ⟨a, u, heq, -, hP⟩ := h hfit
  cases heq
  exact ⟨a, rfl, hP⟩

/-- A computation that grows started in a state that can be addressed if it leaves one. -/
theorem Grows.addressable (hgrows : Grows step) (hfit : Addressable (step.perform s).2) :
    Addressable s :=
  addressable_of_extends (hgrows s) hfit

/-- A computation that grows may assume that it starts in a state that can be addressed. -/
theorem Yields.of_addressable (hgrows : Grows step) (h : Addressable s → Yields step s P) :
    Yields step s P :=
  fun hfit => h (hgrows.addressable hfit) hfit

/-- The state that a computation leaves can be addressed if that can be said of the state left by
the computation after it. -/
theorem addressable_of_bind {next : α → Step σ β} (hnext : ∀ a, Grows (next a))
    (hfit : Addressable ((step >>= next).perform s).2) : Addressable (step.perform s).2 := by
  rw [perform_bind] at hfit
  rcases hrun : step.perform s with ⟨answer, t⟩
  rw [hrun] at hfit
  cases answer with
  | error f => exact hfit
  | ok a => exact (hnext a).addressable hfit

/-- Two computations one after the other: what the first one promises is what the second one may
rely on. -/
theorem Yields.bind {next : α → Step σ β} {Q : β → σ → Prop} (hstep : Yields step s P)
    (hnext : ∀ a, Grows (next a))
    (h : ∀ a t, Extends t s → P a t → Yields (next a) t Q) : Yields (step >>= next) s Q := by
  intro hfit
  obtain ⟨a, t, hrun, hext, hP⟩ := hstep (addressable_of_bind hnext hfit)
  have hperform : (step >>= next).perform s = (next a).perform t := by rw [perform_bind, hrun]
  rw [hperform] at hfit ⊢
  obtain ⟨b, u, hrun', hext', hQ⟩ := h a t hext hP hfit
  exact ⟨b, u, hrun', trans hext' hext, hQ⟩

/-- Two computations, and one that uses both of their answers: what the first one promises is still
so when the second one has ended. -/
theorem Yields.pair {γ : Type} {I : σ → Prop} {second : Step σ β} {next : α → β → Step σ γ}
    {Q : β → σ → Prop} {R : γ → σ → Prop} (hfirst : Yields step s fun a t => I t ∧ P a t)
    (hsecond : ∀ t, I t → Yields second t fun b u => I u ∧ Q b u)
    (hlasts : ∀ {a t u}, I t → Extends u t → P a t → P a u) (hgrows : Grows second)
    (hnext : ∀ a b, Grows (next a b))
    (h : ∀ a b u, Extends u s → I u → P a u → Q b u → Yields (next a b) u R) :
    Yields (step >>= fun a => second >>= next a) s R := by
  refine hfirst.bind (fun a => hgrows.bind (hnext a)) fun a t hext ⟨ht, ha⟩ => ?_
  refine (hsecond t ht).bind (hnext a) fun b u hu ⟨hI, hb⟩ => ?_
  exact h a b u (trans hu hext) hI (hlasts ht hu ha) hb

/-- A computation whose outcome is known, and another one after it. -/
theorem Yields.after {next : α → Step σ β} {a : α} {t : σ} {Q : β → σ → Prop}
    (hrun : step.perform s = (.ok a, t)) (hext : Extends t s) (h : Yields (next a) t Q) :
    Yields (step >>= next) s Q := by
  intro hfit
  have hperform : (step >>= next).perform s = (next a).perform t := by rw [perform_bind, hrun]
  rw [hperform] at hfit ⊢
  obtain ⟨b, u, hrun', hext', hQ⟩ := h hfit
  exact ⟨b, u, hrun', trans hext' hext, hQ⟩

/-- A partial reading of the state that succeeds, and a computation after it. -/
theorem Yields.after_query {f : σ → Except Fault α} {next : α → Step σ β} {a : α}
    {Q : β → σ → Prop} (hf : f s = .ok a) (h : Yields (next a) s Q) :
    Yields (Step.query f >>= next) s Q :=
  Yields.after (by rw [perform_query, hf]) (refl s) h

/-- A run of computations each of which keeps an invariant. -/
theorem Yields.mapM {f : α → Step σ β} {I : σ → Prop} (hgrows : ∀ a, Grows (f a))
    (hf : ∀ a s, I s → Yields (f a) s fun _ t => I t) (as : List α) {s : σ} (hs : I s) :
    Yields (as.mapM f) s fun _ t => I t := by
  induction as generalizing s with
  | nil => exact Yields.pure hs
  | cons a as ih =>
    rw [List.mapM_cons]
    exact (hf a s hs).bind (fun _ => (Grows.mapM hgrows as).bind fun _ => Grows.pure _)
      fun _ t _ ht => (ih ht).bind (fun _ => Grows.pure _) fun _ u _ hu => Yields.pure hu

/-! ### Contracts without a condition -/

/-- The computation started in `s` has an answer, and the answer and the state it leaves are as `P`
says. -/
def Ends (step : Step σ α) (s : σ) (P : α → σ → Prop) : Prop :=
  ∃ a t, step.perform s = (.ok a, t) ∧ Extends t s ∧ P a t

theorem Ends.pure {a : α} (h : P a s) : Ends (Pure.pure a : Step σ α) s P :=
  ⟨a, s, rfl, refl s, h⟩

/-- A computation whose outcome is known, and another one after it. -/
theorem Ends.after {next : α → Step σ β} {a : α} {t : σ} {Q : β → σ → Prop}
    (hrun : step.perform s = (.ok a, t)) (hext : Extends t s) (h : Ends (next a) t Q) :
    Ends (step >>= next) s Q := by
  obtain ⟨b, u, hrun', hext', hQ⟩ := h
  exact ⟨b, u, by rw [perform_bind, hrun]; exact hrun', trans hext' hext, hQ⟩

theorem Ends.bind {next : α → Step σ β} {Q : β → σ → Prop} (h : Ends step s P)
    (hnext : ∀ a t, Extends t s → P a t → Ends (next a) t Q) : Ends (step >>= next) s Q := by
  obtain ⟨a, t, hrun, hext, hP⟩ := h
  exact Ends.after hrun hext (hnext a t hext hP)

/-- A partial reading of the state that succeeds, and a computation after it. -/
theorem Ends.after_query {f : σ → Except Fault α} {next : α → Step σ β} {a : α}
    {Q : β → σ → Prop} (hf : f s = .ok a) (h : Ends (next a) s Q) :
    Ends (Step.query f >>= next) s Q :=
  Ends.after (by rw [perform_query, hf]) (refl s) h

/-- The computation started in `s` has an answer, and it leaves a state with the property `I`. -/
def Stays (I : σ → Prop) (step : Step σ α) (s : σ) : Prop := Ends step s fun _ t => I t

variable {I : σ → Prop}

theorem Stays.pure (h : I s) (a : α) : Stays I (Pure.pure a : Step σ α) s := Ends.pure h

/-- A computation that keeps to states that can be addressed keeps its contract as well. -/
theorem Stays.yields (h : Stays I step s) (hI : ∀ t, I t → Addressable t) (hP : Yields step s P) :
    Ends step s fun a t => I t ∧ P a t := by
  obtain ⟨a, t, hrun, hext, ht⟩ := h
  have hfit : Addressable (step.perform s).2 := by
    rw [hrun]
    exact hI t ht
  obtain ⟨b, u, hrun', -, hP⟩ := hP hfit
  cases hrun.symm.trans hrun'
  exact ⟨a, t, hrun, hext, ht, hP⟩

end Step

end BrakeCheck
