import BrakeCheck.Formula.Model
import BrakeCheck.Formula.Printer
import BrakeCheck.Linear.Feasibility
import BrakeCheck.Skeleton.Encoding

/-!
# The solver

Whether formulas over rational constants have a common model.  The conjunction of the assertions
is kept as a diagram over atoms.  A check takes a path of the diagram to the constant true, asks
whether the constraints of the path have a common solution, and blocks the path if they have
none; it ends with a solution, without a path, or with its budget of such questions spent.

## Main definitions

* `Solver.add` — asserts one more formula.
* `Solver.check` — answers for the formulas asserted so far.
* `Solver.model`, `Solver.stats` — what the last check has left.
-/

namespace BrakeCheck

/-- The answer of a check. -/
inductive Satisfiability where
  | sat | unsat | unknown
  deriving DecidableEq

/-- How an answer is written. -/
def Satisfiability.render : Satisfiability → String
  | sat => "sat"
  | unsat => "unsat"
  | unknown => "unknown"

instance : ToString Satisfiability := ⟨Satisfiability.render⟩

/-- The budget of a check, and the size of the tables. -/
structure SolverConfig where
  /-- The number of paths that one check may examine. -/
  maxTheoryChecks : Nat := 10000
  /-- The binary logarithm of the number of buckets of the node table. -/
  bucketBits : Nat := 12

/-! ### The search for a path with a solution -/

/-- How a search has ended. -/
structure SearchResult where
  answer : Satisfiability
  /-- A solution of the constraints of the last path, if it has one. -/
  values : Option (OrderedMap Rat)
  /-- The number of paths examined. -/
  theoryChecks : Nat

namespace Skeleton

/-- Reports that a path is examined. -/
def notePath (number : Nat) (ls : List Literal) : Step Skeleton Unit :=
  onManager <| Manager.note .debug .solver <|
    s!"theory check #{number} on path [" ++ ", ".intercalate (ls.map Literal.render) ++ "]"

/-- A common solution of the constraints that the literals of a path stand for, if there is
one. -/
def examine (ls : List Literal) : Step Skeleton Linear.Feasibility := do
  let cs ← Step.query (·.atoms.constraints ls)
  let elimination := Linear.Elimination.ofConstraints cs
  onManager (Manager.noteAll .debug .theory elimination.findings)
  return elimination.verdict

/-- Searches `r` for a path whose constraints have a solution, when `spent` paths have been
examined before and as many more may be as the last argument says. -/
def search (r : Ref) (spent : Nat) : Nat → Step Skeleton SearchResult
  | 0 => do
    match ← Step.query (·.manager.path r) with
    | none => return ⟨.unsat, none, spent⟩
    | some _ =>
      onManager (Manager.note .warn .solver s!"giving up after {spent} theory checks")
      return ⟨.unknown, none, spent⟩
  | budget + 1 => do
    match ← Step.query (·.manager.path r) with
    | none => return ⟨.unsat, none, spent⟩
    | some ls =>
      notePath (spent + 1) ls
      match ← examine ls with
      | .feasible values => return ⟨.sat, some values, spent + 1⟩
      | .infeasible => search (← onManager (Manager.block r ls)) (spent + 1) budget

end Skeleton

/-! ### Assertions and checks -/

/-- The formulas asserted, with their conjunction as a diagram, and what the last check has
left. -/
structure Solver where
  config : SolverConfig
  skeleton : Skeleton
  /-- The formulas asserted, oldest first. -/
  assertions : Array Formula
  /-- The conjunction of the formulas asserted. -/
  root : Ref
  /-- The symbolic constants of the formulas asserted. -/
  names : NameSet
  /-- The model found by the last check. -/
  model : Option Model
  /-- The number of paths that the last check has examined. -/
  theoryChecks : Nat

/-- The extent of a solver and of its last check. -/
structure SolverStats where
  atoms : Nat
  skeletonSize : Nat
  theoryChecks : Nat
  cacheHits : Nat
  cacheMisses : Nat

namespace Solver

variable {α : Type}

/-- A solver without assertions. -/
def create (config : SolverConfig) (journal : Journal) : Except Fault Solver := do
  return ⟨config, ← Skeleton.create config.bucketBits journal, #[], .one, ∅, none, 0⟩

/-- A computation on the skeleton; the rest of the solver stays as it is. -/
def onSkeleton (step : Step Skeleton α) : Step Solver α :=
  ExceptT.mk fun ⟨config, skeleton, assertions, root, names, model, theoryChecks⟩ =>
    let (answer, skeleton) := step.perform skeleton
    (answer, ⟨config, skeleton, assertions, root, names, model, theoryChecks⟩)

/-- Writes an entry in the journal. -/
def note (level : Level) (origin : Origin) (text : Thunk String) : Step Solver Unit :=
  onSkeleton (Skeleton.onManager (Manager.note level origin text))

/-- The journal of the run. -/
def journal (s : Solver) : Journal := s.skeleton.manager.journal

/-- Asserts a formula. -/
def add (f : Formula) : Step Solver Unit := do
  note .debug .solver s!"add({f})"
  modify fun s => { s with names := s.names.addAll f.names }
  let r ← onSkeleton f.encode
  let root := (← get).root
  let root ← onSkeleton (Skeleton.onManager (Manager.conj root r))
  modify fun s => { s with root, assertions := s.assertions.push f }

/-- Asserts formulas one after the other. -/
def addAll : List Formula → Step Solver Unit
  | [] => pure ()
  | f :: fs => do
    add f
    addAll fs

/-- The extent of a solver and of its last check. -/
def stats (s : Solver) : Except Fault SolverStats := do
  let (hits, misses) := s.skeleton.manager.lookupCounts
  let size ← s.skeleton.manager.extent s.root
  return ⟨s.skeleton.atoms.size, size, s.theoryChecks, hits, misses⟩

/-- The report on a check. -/
def renderCheck (answer : Satisfiability) (stats : SolverStats) : String :=
  s!"check: {answer} ({stats.atoms} atoms, skeleton of {stats.skeletonSize} nodes, " ++
    s!"{stats.theoryChecks} theory checks, " ++
    s!"cache {stats.cacheHits}/{stats.cacheHits + stats.cacheMisses} hits)"

/-- Whether the formulas asserted so far have a common model; one that is found is kept. -/
def check : Step Solver Satisfiability := do
  modify fun s => { s with model := none, theoryChecks := 0 }
  let (root, budget) ← Step.query fun s => .ok (s.root, s.config.maxTheoryChecks)
  let result ← onSkeleton (Skeleton.search root 0 budget)
  modify fun s =>
    { s with
      model := result.values.map fun values => Model.complete values s.names
      theoryChecks := result.theoryChecks }
  let stats ← Step.query stats
  note .info .solver (renderCheck result.answer stats)
  return result.answer

end Solver

end BrakeCheck
