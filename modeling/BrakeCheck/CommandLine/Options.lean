import BrakeCheck.Control.Case
import BrakeCheck.Rational.Count
import BrakeCheck.Rational.Reader
import BrakeCheck.Text.Terminal

/-!
# Options

What a user can set on the command line, and what stands for each setting that is not given.

## Main definitions

* `Setting` — the settings, with the names of their flags.
* `Options` — the values of all settings.
* `Options.assign` — the options with one setting read from a text.
-/

namespace BrakeCheck.CommandLine

/-- What a user can set. -/
inductive Setting where
  | fbDecel | pb2Decel | pb1Decel
  | fbTime | pb2Time | pb1Time | fcwTime
  | layout | maxChecks | logLevel
  deriving DecidableEq

namespace Setting

/-- All settings, in the order in which they are listed. -/
def all : List Setting :=
  [fbDecel, pb2Decel, pb1Decel, fbTime, pb2Time, pb1Time, fcwTime, layout, maxChecks, logLevel]

/-- The name of a setting's flag. -/
def name : Setting → String
  | fbDecel => "fb-decel"
  | pb2Decel => "pb2-decel"
  | pb1Decel => "pb1-decel"
  | fbTime => "fb-time"
  | pb2Time => "pb2-time"
  | pb1Time => "pb1-time"
  | fcwTime => "fcw-time"
  | layout => "layout"
  | maxChecks => "max-checks"
  | logLevel => "log-level"

/-- What stands for the value in a setting's description. -/
def placeholder : Setting → String
  | layout => "LAYOUT"
  | maxChecks => "INT"
  | logLevel => "LOG_LEVEL"
  | _ => "NUM"

/-- How a setting is described. -/
def describe (s : Setting) : String := "--" ++ s.name ++ " <" ++ s.placeholder ++ ">"

/-- The setting with a name, if there is one. -/
def named? (name : String) : Option Setting := all.find? fun s => s.name = name

end Setting

/-- Why a command line is refused. -/
inductive UsageError where
  /-- An argument that belongs to no setting. -/
  | unexpectedArgument (argument : String)
  /-- A value for a flag that takes none. -/
  | unexpectedValue (flag value : String)
  /-- A setting without its value. -/
  | missingValue (s : Setting)
  /-- A value that a setting cannot have, and why, if there is more to say. -/
  | invalidValue (s : Setting) (value : String) (why : Option String)
  /-- A setting that is given twice. -/
  | repeated (s : Setting)

/-- A text of the user as it is repeated in a message. -/
def repeatBack (text : String) : String := String.ofList (Text.withoutControls text.toList)

/-- The message that tells a user why a command line is refused. -/
def UsageError.message : UsageError → String
  | unexpectedArgument a => "error: unexpected argument '" ++ repeatBack a ++ "' found"
  | unexpectedValue flag v =>
    "error: unexpected value '" ++ repeatBack v ++ "' for '" ++ flag
      ++ "' found; no more were expected"
  | missingValue s =>
    "error: a value is required for '" ++ s.describe ++ "' but none was supplied"
  | invalidValue s v why =>
    "error: invalid value '" ++ repeatBack v ++ "' for '" ++ s.describe ++ "'"
      ++ (why.elim "" fun reason => ": " ++ reason)
  | repeated s => "error: the argument '" ++ s.describe ++ "' cannot be used multiple times"

/-! ### Named values -/

/-- The names of the table layouts. -/
def layouts : List (String × TableLayout) :=
  [("standard", .standard), ("priority-inverted", .priorityInverted)]

/-- The names of the levels at which a journal can be opened. -/
def levels : List (String × Option Level) :=
  [("off", none), ("error", some .error), ("warn", some .warn), ("info", some .info),
    ("debug", some .debug), ("trace", some .trace)]

/-! ### Options -/

/-- The values of all settings. -/
structure Options where
  calibration : Calibration := {}
  layout : TableLayout := .standard
  maxChecks : Nat := 10000
  logLevel : Option Level := some .warn

namespace Options

/-- A number given for a setting. -/
def readNumber (s : Setting) (text : String) : Except UsageError Rat :=
  match Rational.readRational text with
  | .ok q => .ok q
  | .error e => .error (.invalidValue s text (some e.message))

/-- A count given for a setting. -/
def readCount (s : Setting) (text : String) : Except UsageError Nat :=
  match Rational.readCount text with
  | .ok n => .ok n
  | .error e => .error (.invalidValue s text (some e.message))

/-- A name given for a setting, out of a list of names with their values. -/
def readName {α : Type} (s : Setting) (values : List (String × α)) (text : String) :
    Except UsageError α :=
  if text.isEmpty then .error (.missingValue s)
  else match values.lookup text with
    | some v => .ok v
    | none => .error (.invalidValue s text none)

/-- The options with fixed thresholds changed. -/
def withThresholds (o : Options) (change : ThresholdValues → ThresholdValues) : Options :=
  { o with calibration.thresholds := change o.calibration.thresholds }

/-- The options with one setting read from a text. -/
def assign (o : Options) (s : Setting) (text : String) : Except UsageError Options :=
  match s with
  | .fbDecel => return { o with calibration.fbDecel := ← readNumber s text }
  | .pb2Decel => return { o with calibration.pb2Decel := ← readNumber s text }
  | .pb1Decel => return { o with calibration.pb1Decel := ← readNumber s text }
  | .fbTime => do
    let q ← readNumber s text
    return o.withThresholds fun t => { t with fbTime := some q }
  | .pb2Time => do
    let q ← readNumber s text
    return o.withThresholds fun t => { t with pb2Time := some q }
  | .pb1Time => do
    let q ← readNumber s text
    return o.withThresholds fun t => { t with pb1Time := some q }
  | .fcwTime => do
    let q ← readNumber s text
    return o.withThresholds fun t => { t with fcwTime := some q }
  | .layout => return { o with layout := ← readName s layouts text }
  | .maxChecks => return { o with maxChecks := ← readCount s text }
  | .logLevel => return { o with logLevel := ← readName s levels text }

/-! ### Text -/

/-- How a number is written in the journal. -/
def renderNumber (q : Rat) : String :=
  "Ratio \x7b numer: " ++ toString q.num ++ ", denom: " ++ toString q.den ++ " \x7d"

/-- How a number that may be missing is written in the journal. -/
def renderOptional : Option Rat → String
  | none => "None"
  | some q => "Some(" ++ renderNumber q ++ ")"

/-- How a table layout is written in the journal. -/
def renderLayout : TableLayout → String
  | .standard => "Standard"
  | .priorityInverted => "PriorityInverted"

/-- How the level of a journal is written in the journal. -/
def renderLevel : Option Level → String
  | none => "Off"
  | some .error => "Error"
  | some .warn => "Warn"
  | some .info => "Info"
  | some .debug => "Debug"
  | some .trace => "Trace"

/-- How options are written in the journal. -/
def render (o : Options) : String :=
  let fields :=
    [("fb_decel", renderNumber o.calibration.fbDecel),
      ("pb2_decel", renderNumber o.calibration.pb2Decel),
      ("pb1_decel", renderNumber o.calibration.pb1Decel),
      ("fb_time", renderOptional o.calibration.thresholds.fbTime),
      ("pb2_time", renderOptional o.calibration.thresholds.pb2Time),
      ("pb1_time", renderOptional o.calibration.thresholds.pb1Time),
      ("fcw_time", renderOptional o.calibration.thresholds.fcwTime),
      ("layout", renderLayout o.layout),
      ("max_checks", toString o.maxChecks),
      ("log_level", renderLevel o.logLevel)]
  "Cli \x7b " ++ ", ".intercalate (fields.map fun f => f.1 ++ ": " ++ f.2) ++ " \x7d"

end Options

end BrakeCheck.CommandLine
