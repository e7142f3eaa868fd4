import BrakeCheck.CommandLine.Session
import Std.Time.DateTime.Timestamp

/-!
# The program

Reads the command line, looks at the clock, and prints.
-/

namespace BrakeCheck.CommandLine

/-- A number below one hundred with two digits. -/
def twoDigits (n : Nat) : String := (if n < 10 then "0" else "") ++ toString n

/-- The time of day at a number of seconds after midnight of some day. -/
def renderClock (seconds : Nat) : String :=
  twoDigits (seconds / 3600 % 24) ++ ":" ++ twoDigits (seconds / 60 % 60) ++ ":"
    ++ twoDigits (seconds % 60)

/-- A time in milliseconds as seconds with three decimal places. -/
def renderSeconds (milliseconds : Nat) : String := String.ofList (Decimal.mk milliseconds 3).digits

/-- Carries out a request. -/
def answer : Request → IO Outcome
  | .version => return inform versionText
  | .help => return inform helpText
  | .verify o => do
    let before ← IO.monoMsNow
    let session ← IO.lazyPure fun _ => Session.start o
    let after ← IO.monoMsNow
    let now ← Std.Time.Timestamp.now
    let clock := renderClock now.toSecondsSinceUnixEpoch.val.toNat
    return session.finish clock (renderSeconds (after - before))

end BrakeCheck.CommandLine

open BrakeCheck.CommandLine in
/-- The program: its exit code tells the verdict. -/
def main (arguments : List String) : IO UInt32 := do
  let outcome ←
    match parse arguments with
    | .ok request => answer request
    | .error e => pure (refuse e)
  IO.print outcome.stdout
  IO.eprint outcome.stderr
  return outcome.exitCode.toUInt32
