import BrakeCheck.Diagram.Choice

/-!
# Cubes and satisfying paths

A cube is a conjunction of literals.  A path from a reference to the constant true names the
literals that are chosen on the way: wherever they hold, so does the function.

## Main definitions

* `Manager.mkCube` — the function of a cube.
* `Manager.path` — one path to the constant true, along high edges where possible.
* `Manager.block` — the function without the assignments of a cube.
* `Manager.paths` — the paths found by blocking each one that has been found.
-/

namespace BrakeCheck

namespace Manager

/-! ### Cubes -/

/-- The literals from the lowest variable to the topmost; equal variables stay in their order. -/
def bottomUp (ls : List Literal) : List Literal := ls.mergeSort fun a b => b.var ≤ a.var

/-- The conjunction of a function with a literal above it. -/
def above (l : Literal) (r : Ref) : Step Manager Ref :=
  if l.isPositive then mkNode l.var .zero r else mkNode l.var r .zero

/-- The conjunction of a function with literals, the lowest of which comes first. -/
def stack (r : Ref) : List Literal → Step Manager Ref
  | [] => pure r
  | l :: ls => do stack (← above l r) ls

/-- The conjunction of literals over distinct variables. -/
def mkCube (ls : List Literal) : Step Manager Ref := do
  let ls := bottomUp ls
  note .debug .diagram s!"mk_cube(literals = {Literal.renderCodes ls})"
  stack .one ls

/-! ### Paths -/

/-- The literals of a path from `r` to the constant true: the high edge is taken unless it leads
to the constant false. -/
def pathFrom (m : Manager) (r : Ref) : Except Fault (List Literal) :=
  if r = .one then .ok []
  else do
    let v ← m.var r
    let high ← m.high r
    let positive : Bool := high ≠ .zero
    let l ← Literal.create v positive
    let next ← if positive then pure high else m.low r
    if next.height < r.height then return l :: (← m.pathFrom next)
    else throw .childNotOlder
termination_by r.height

/-- The literals of one path from `r` to the constant true, if `r` is not constantly false. -/
def path (m : Manager) (r : Ref) : Except Fault (Option (List Literal)) :=
  if r = .zero then .ok none else (m.pathFrom r).map some

/-- The function `r` without the assignments under which all of the literals hold. -/
def block (r : Ref) (ls : List Literal) : Step Manager Ref := do
  let cube ← mkCube ls
  conj r (-cube)

/-- At most `limit` paths, each found after the ones before it have been blocked. -/
def pathsUpTo (r : Ref) : Nat → Step Manager (List (List Literal))
  | 0 => pure []
  | limit + 1 => do
    match ← Step.query (·.path r) with
    | none => return []
    | some ls => return ls :: (← pathsUpTo (← block r ls) limit)

/-- The paths to the constant true, each found after the ones before it have been blocked.  Below
a node there are fewer than two to the power of its height. -/
def paths (r : Ref) : Step Manager (List (List Literal)) := pathsUpTo r (1 <<< r.height)

end Manager

end BrakeCheck
