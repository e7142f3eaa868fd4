/-!
# The journal of a run

Every layer of the program reports what it does as entries of one journal.  A journal is opened
at a level; entries that are less severe are not kept, and their texts are never put together.

## Main definitions

* `Level`, `Origin` — how severe an entry is, and which part of the program reports it.
* `Journal.note`, `Journal.noteAll` — append entries if the journal keeps their level.
-/

namespace BrakeCheck

/-- How severe an entry is. -/
inductive Level where
  | error | warn | info | debug | trace
  deriving DecidableEq

namespace Level

/-- The levels from the most severe to the most detailed, counted from one. -/
def detail : Level → Nat
  | error => 1
  | warn => 2
  | info => 3
  | debug => 4
  | trace => 5

/-- The name of a level in a written entry. -/
def name : Level → String
  | error => "ERROR"
  | warn => "WARN"
  | info => "INFO"
  | debug => "DEBUG"
  | trace => "TRACE"

end Level

/-- The part of the program that reports an entry. -/
inductive Origin where
  | program | diagram | atoms | solver | theory | verification
  deriving DecidableEq

/-- The name of a part of the program in a written entry. -/
def Origin.path : Origin → String
  | program => "aeb_verify"
  | diagram => "aeb_verify::bdd"
  | atoms => "aeb_verify::atoms"
  | solver => "aeb_verify::solver"
  | theory => "aeb_verify::theory"
  | verification => "aeb_verify::verify"

/-- One report. -/
structure Entry where
  level : Level
  origin : Origin
  text : String
  deriving DecidableEq

/-- The reports of a run, oldest first. -/
structure Journal where
  /-- The most detailed level that is kept; nothing is kept without one. -/
  level : Option Level
  entries : Array Entry
  deriving DecidableEq

namespace Journal

/-- A journal without entries that keeps the given level and all more severe ones. -/
def opened (level : Option Level) : Journal := ⟨level, #[]⟩

/-- A journal that keeps nothing. -/
def closed : Journal := opened none

/-- Whether the journal keeps entries of a level. -/
def keeps (j : Journal) (level : Level) : Bool :=
  match j.level with
  | none => false
  | some limit => level.detail ≤ limit.detail

/-- Appends an entry if the journal keeps its level. -/
def note (j : Journal) (level : Level) (origin : Origin) (text : Thunk String) : Journal :=
  if j.keeps level then { j with entries := j.entries.push ⟨level, origin, text.get⟩ } else j

/-- Appends entries if the journal keeps their level. -/
def noteAll (j : Journal) (level : Level) (origin : Origin) (texts : Thunk (List String)) :
    Journal :=
  if j.keeps level then
    { j with entries := texts.get.foldl (fun es text => es.push ⟨level, origin, text⟩) j.entries }
  else j

end Journal

end BrakeCheck
