/-!
# Faults

The ways in which an operation can be called outside its contract.  A fault stops the operation;
what it had already stored stays stored.

## Main definitions

* `Fault` — the causes.
* `Fault.message` — what is reported for each.
* `Step σ α` — a computation on a state `σ` that may stop with a fault and then leaves the state
  it had reached.
-/

namespace BrakeCheck

/-- A broken contract. -/
inductive Fault where
  /-- A node table with more than `2 ^ 24` buckets. -/
  | tooManyBuckets
  /-- A computed table with more than `2 ^ 24` slots. -/
  | tooManySlots
  /-- The index zero, under which nothing is ever stored. -/
  | indexZero
  /-- An index that has not been handed out. -/
  | indexOutOfBounds
  /-- The variable zero, which belongs to the terminal. -/
  | variableZero
  /-- The opposite of the literal with the least code, which does not fit a word. -/
  | noComplement
  /-- The cofactor of a node by a variable below the node's own. -/
  | belowOwnVariable
  /-- A choice whose test is constant where one that branches is needed. -/
  | constantTest
  /-- A comparison without variables where an atom is needed. -/
  | groundAtom
  /-- A numeral with more decimal places than can be written. -/
  | tooManyPlaces
  /-- A node whose child is not older than the node. -/
  | childNotOlder
  deriving DecidableEq

/-- What is reported for a fault. -/
def Fault.message : Fault → String
  | tooManyBuckets => "Bucket bits should be in the range 0..=24"
  | tooManySlots => "Bits should be in the range 0..=24"
  | indexZero => "Index is 0"
  | indexOutOfBounds => "index out of bounds"
  | variableZero => "Variable index should not be zero"
  | noComplement => "attempt to negate with overflow"
  | belowOwnVariable => "assertion failed"
  | constantTest => "assertion failed"
  | groundAtom => "Ground atoms must be folded"
  | tooManyPlaces => "Formatting argument out of range"
  | childNotOlder => "Child is not older than its parent"

/-- A computation on a state that may stop with a fault; the state reached so far is kept. -/
abbrev Step (σ : Type) := ExceptT Fault (StateM σ)

namespace Step

variable {σ α β : Type}

/-- The answer of a computation started in `s`, and the state it leaves. -/
def perform (step : Step σ α) (s : σ) : Except Fault α × σ := step.run.run s

/-- What a partial reading of the state gives; the state stays as it is. -/
def query (f : σ → Except Fault α) : Step σ α := do f (← get)

/-- The results of `f` on the members of a list, from first to last, one after the other. -/
def collect (f : α → Step σ (List β)) : List α → Step σ (List β)
  | [] => pure []
  | a :: as => do
    let here ← f a
    let rest ← collect f as
    pure (here ++ rest)

/-! ### Performing steps -/

@[simp] theorem perform_pure (a : α) (s : σ) : perform (pure a) s = (.ok a, s) := rfl

@[simp] theorem perform_throw (f : Fault) (s : σ) :
    perform (throw f : Step σ α) s = (.error f, s) := rfl

/-- The second of two computations starts in the state that the first one leaves, unless that has
stopped with a fault. -/
theorem perform_bind (step : Step σ α) (next : α → Step σ β) (s : σ) :
    perform (step >>= next) s =
      match perform step s with
      | (.ok a, s) => perform (next a) s
      | (.error f, s) => (.error f, s) := by
  change (match step.run.run s with
    | (a, s) => (ExceptT.bindCont next a).run s) = _
  unfold perform
  rcases step.run.run s with ⟨a, s⟩
  cases a <;> rfl

@[simp] theorem perform_get (s : σ) : perform (get : Step σ σ) s = (.ok s, s) := rfl

@[simp] theorem perform_set (s t : σ) : perform (set t : Step σ PUnit) s = (.ok ⟨⟩, t) := rfl

@[simp] theorem perform_modify (f : σ → σ) (s : σ) : perform (modify f) s = (.ok (), f s) := rfl

@[simp] theorem perform_modifyGet (f : σ → α × σ) (s : σ) :
    perform (modifyGet f) s = (.ok (f s).1, (f s).2) := rfl

@[simp] theorem perform_query (f : σ → Except Fault α) (s : σ) :
    perform (query f) s = (f s, s) := by
  unfold query
  rw [perform_bind, perform_get]
  change perform (liftM (f s)) s = _
  cases f s <;> rfl

end Step

end BrakeCheck
