import BrakeCheck.Diagram.Cube
import BrakeCheck.Diagram.Reach
import BrakeCheck.Linear.Constraint

/-!
# Atoms

A query is seen as a Boolean function of its atoms, each of which says that some linear
expression is below zero.  The atom numbered `v` is the diagram variable `v`; numbers start at
one.  The Boolean side of a query, its skeleton, is the store of diagrams together with the
atoms.

## Main definitions

* `AtomTable.atom` — the expression of an atom.
* `AtomTable.constraint` — the linear constraint that a literal stands for.
* `Skeleton.intern` — the number of an atom, given on its first appearance.
-/

namespace BrakeCheck

/-- The expressions of the atoms, in the order of their numbers. -/
structure AtomTable where
  exprs : Array LinExpr

namespace AtomTable

/-- The table without atoms. -/
def empty : AtomTable := ⟨#[]⟩

/-- The number of atoms. -/
def size (t : AtomTable) : Nat := t.exprs.size

/-- Whether there are no atoms. -/
def isEmpty (t : AtomTable) : Bool := t.exprs.isEmpty

/-- The number of the atom with an expression, if there is one. -/
def find? (t : AtomTable) (e : LinExpr) : Option Nat :=
  (t.exprs.findIdx? fun d => d = e).map (· + 1)

/-- Gives the next number to an expression. -/
def push (t : AtomTable) (e : LinExpr) : AtomTable := ⟨t.exprs.push e⟩

/-- The expression of an atom. -/
def atom (t : AtomTable) (v : Nat) : Except Fault LinExpr :=
  if v = 0 then .error .variableZero
  else match t.exprs[v - 1]? with
    | some e => .ok e
    | none => .error .indexOutOfBounds

/-- The linear constraint that a literal stands for: the expression of its atom is below zero, or
else the opposite expression is at most zero. -/
def constraint (t : AtomTable) (l : Literal) : Except Fault Constraint := do
  let e ← t.atom l.var
  return if l.isPositive then .ltZero e else .leZero (-e)

/-- The linear constraints that the literals of a path stand for. -/
def constraints (t : AtomTable) (ls : List Literal) : Except Fault (List Constraint) :=
  ls.mapM t.constraint

end AtomTable

/-- The store of diagrams, and the atoms that its variables stand for. -/
structure Skeleton where
  manager : Manager
  atoms : AtomTable

namespace Skeleton

variable {α : Type}

/-- A skeleton without atoms. -/
def create (bits : Nat) (journal : Journal) : Except Fault Skeleton := do
  return ⟨← Manager.create bits journal, .empty⟩

/-- A computation on the store of diagrams; the atoms stay as they are. -/
def onManager (step : Step Manager α) : Step Skeleton α :=
  ExceptT.mk fun ⟨manager, atoms⟩ =>
    let (answer, manager) := step.perform manager
    (answer, ⟨manager, atoms⟩)

/-- The number of the atom with an expression, which becomes a new atom if there is none. -/
def intern (e : LinExpr) : Step Skeleton Nat := do
  if e.isConstant then throw .groundAtom
  match ← Step.query fun s => .ok (s.atoms.find? e) with
  | some v => return v
  | none =>
    let v ← modifyGet fun ⟨manager, atoms⟩ => (atoms.size + 1, ⟨manager, atoms.push e⟩)
    onManager (Manager.note .debug .atoms s!"atom x{v}: {e} < 0")
    return v

end Skeleton

end BrakeCheck
