import BrakeCheck.CommandLine.Options

/-!
# Arguments

How the arguments of the command line are read.  A setting is given as `--name value` or as
`--name=value`; a value of its own argument does not begin with a minus sign.  Arguments are read
from left to right, and a value is examined when the next setting is met or nothing follows, so
an argument that belongs to no setting is complained of before the value in front of it.

## Main definitions

* `Request` — what a command line asks for.
* `parse` — the request of a list of arguments.
-/

namespace BrakeCheck.CommandLine

/-- What a command line asks for. -/
inductive Request where
  | verify (o : Options)
  | version
  | help

/-- The shapes of arguments. -/
inductive Argument where
  /-- Two minus signs alone, after which no setting can follow. -/
  | separator
  /-- A name after two minus signs, and the value after an equals sign. -/
  | long (name : String) (value : Option String)
  /-- A character after one minus sign. -/
  | short (flag : Char)
  /-- Anything else. -/
  | plain

/-- The shape of an argument. -/
def Argument.ofString (argument : String) : Argument :=
  match argument.toList with
  | ['-', '-'] => .separator
  | '-' :: '-' :: cs =>
    match Rational.splitFirst? '=' cs with
    | some (name, value) => .long (String.ofList name) (some (String.ofList value))
    | none => .long (String.ofList cs) none
  | '-' :: c :: _ => .short c
  | _ => .plain

/-- The settings read so far, and a setting whose value has not been examined. -/
structure Reading where
  options : Options := {}
  given : List Setting := []
  pending : Option (Setting × Option String) := none

namespace Reading

/-- Reads the value of a setting, which must not have been given before. -/
def assign (r : Reading) (s : Setting) (text : String) : Except UsageError Reading := do
  if s ∈ r.given then throw (.repeated s)
  return { options := ← r.options.assign s text, given := s :: r.given }

/-- Examines the value that is pending, if there is one. -/
def settle (r : Reading) : Except UsageError Reading :=
  match r.pending with
  | none => .ok r
  | some (s, none) => .error (.missingValue s)
  | some (s, some text) => r.assign s text

/-- Reads a flag that takes no value and ends the reading. -/
def finish (r : Reading) (request : Request) : Except UsageError Request := do
  let _ ← r.settle
  return request

end Reading

/-- The request of a flag that is no setting, given by name. -/
def Request.named? : String → Option Request
  | "version" => some .version
  | "help" => some .help
  | _ => none

/-- The request of a flag that is no setting, given by its character. -/
def Request.flagged? : Char → Option Request
  | 'V' => some .version
  | 'h' => some .help
  | _ => none

/-- The request of the arguments that follow, when others have been read. -/
def parseFrom (r : Reading) : List String → Except UsageError Request
  | [] => do return .verify (← r.settle).options
  | argument :: rest =>
    match Argument.ofString argument with
    | .separator =>
      match rest with
      | [] => do return .verify (← r.settle).options
      | next :: _ => .error (.unexpectedArgument next)
    | .long name value =>
      match Setting.named? name, value with
      | some s, none => do parseFrom { ← r.settle with pending := some (s, none) } rest
      | some s, some text => do parseFrom (← (← r.settle).assign s text) rest
      | none, _ =>
        match Request.named? name, value with
        | some request, none => r.finish request
        | some _, some text => .error (.unexpectedValue ("--" ++ name) text)
        | none, _ => .error (.unexpectedArgument ("--" ++ name))
    | .short flag =>
      match Request.flagged? flag with
      | some request => r.finish request
      | none => .error (.unexpectedArgument (String.ofList ['-', flag]))
    | .plain =>
      match r.pending with
      | some (s, none) => parseFrom { r with pending := some (s, some argument) } rest
      | _ => .error (.unexpectedArgument argument)

/-- The request of a list of arguments. -/
def parse (arguments : List String) : Except UsageError Request := parseFrom {} arguments

end BrakeCheck.CommandLine
