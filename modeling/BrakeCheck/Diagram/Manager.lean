import BrakeCheck.ComputedTable
import BrakeCheck.Diagram.Literal
import BrakeCheck.Diagram.Ref
import BrakeCheck.HashCons
import BrakeCheck.Journal

/-!
# The store of decision diagrams

Reduced ordered decision diagrams with complement edges, shared in one store.  A node branches on
a variable; variables start at one, and smaller ones stand nearer to the root.  Of the two edges
of a node only the low one may be complemented, and the two edges differ, so that a function has
one reference.

## Main definitions

* `Node`, `Manager` — a node, and the store with its computed table.
* `Manager.mkNode` — the reference to a node with given edges.
* `Manager.cofactors` — the two cofactors of a reference by a variable.
-/

namespace BrakeCheck

/-- A branch on a variable: the low edge is followed where it is false. -/
structure Node where
  var : Nat
  low : Ref
  high : Ref
  deriving DecidableEq

/-- The node of the constants. -/
def Node.terminal : Node := ⟨0, ⟨0, false⟩, ⟨0, false⟩⟩

instance : Hashed Node where
  hash n := triple n.var.toUInt64 n.low.word.toUInt64 n.high.word.toUInt64

/-- An if-then-else of references: test, value where it holds, value elsewhere. -/
structure Choice where
  test : Ref
  yes : Ref
  no : Ref
  deriving DecidableEq

instance : Hashed Choice where
  hash c := triple c.test.word.toUInt64 c.yes.word.toUInt64 c.no.word.toUInt64

/-- The stored nodes, the results of earlier choices, and the journal of the run. -/
structure Manager where
  nodes : HashCons Node
  computed : ComputedTable Choice Ref
  journal : Journal

namespace Manager

/-- The largest number of bits that the computed table is given. -/
def computedBits : Nat := 16

/-- A store that holds the terminal alone. -/
def create (bits : Nat) (journal : Journal) : Except Fault Manager := do
  let nodes ← HashCons.create bits
  let computed ← ComputedTable.create (min bits computedBits)
  return ⟨(nodes.add Node.terminal).2, computed, journal⟩

/-- Writes an entry in the journal. -/
def note (level : Level) (origin : Origin) (text : Thunk String) : Step Manager Unit :=
  modify fun m => { m with journal := m.journal.note level origin text }

/-- Writes entries in the journal. -/
def noteAll (level : Level) (origin : Origin) (texts : Thunk (List String)) : Step Manager Unit :=
  modify fun m => { m with journal := m.journal.noteAll level origin texts }

/-- How many lookups in the computed table have found their key, and how many have not. -/
def lookupCounts (m : Manager) : Nat × Nat := (m.computed.hits, m.computed.misses)

/-- The extent of the store, as it is written. -/
def summary (m : Manager) : String :=
  "Bdd \x7b buckets: " ++ toString m.nodes.bucketCount ++ ", size: " ++ toString m.nodes.size
    ++ " \x7d"

/-! ### Reading nodes -/

/-- The node that a reference names. -/
def node (m : Manager) (r : Ref) : Except Fault Node := m.nodes.value r.index

/-- The variable of a node. -/
def var (m : Manager) (r : Ref) : Except Fault Nat := (m.node r).map Node.var

/-- The low edge of a reference. -/
def low (m : Manager) (r : Ref) : Except Fault Ref := (m.node r).map fun n => n.low.flipIf r.negated

/-- The high edge of a reference. -/
def high (m : Manager) (r : Ref) : Except Fault Ref :=
  (m.node r).map fun n => n.high.flipIf r.negated

/-- The references that agree with `r` where the variable `v` is false and where it is true; `v`
must not stand below the variable of `r`. -/
def cofactors (m : Manager) (r : Ref) (v : Nat) : Except Fault (Ref × Ref) := do
  if v = 0 then throw .variableZero
  if r = .zero ∨ r = .one then return (r, r)
  let own ← m.var r
  if v < own then return (r, r)
  if v ≠ own then throw .belowOwnVariable
  return (← m.low r, ← m.high r)

/-! ### Making nodes -/

/-- The reference to the node with the given edges, of which the high one is regular; equal edges
need no node. -/
def share (v : Nat) (low high : Ref) : Step Manager Ref := do
  if low = high then return low
  modifyGet fun m =>
    let (i, nodes) := m.nodes.put ⟨v, low, high⟩
    (Ref.of i false, { m with nodes })

/-- Reports that a node is asked for. -/
def noteNode (v : Nat) (low high : Ref) : Step Manager Unit :=
  note .debug .diagram s!"mk(v = {v}, low = {low}, high = {high})"

/-- The reference to the function that is `high` where the variable `v` is true and `low` where it
is false; `v` must stand above the variables of both. -/
def mkNode (v : Nat) (low high : Ref) : Step Manager Ref := do
  noteNode v low high
  if v = 0 then throw .variableZero
  if high.negated then
    noteNode v (-low) (-high)
    return -(← share v (-low) (-high))
  share v low high

/-- The function that is true where the variable `v` is. -/
def mkVar (v : Nat) : Step Manager Ref := do
  if v = 0 then throw .variableZero
  mkNode v .zero .one

end Manager

end BrakeCheck
