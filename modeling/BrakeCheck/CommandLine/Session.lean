import BrakeCheck.CommandLine.Arguments
import BrakeCheck.Control.Report

/-!
# Sessions

What the program does for a command line: the verification itself, and what is printed of it.
The clock is not read here; the time of day and the time taken are given.

## Main definitions

* `Session.start` — carries out a verification.
* `Session.finish` — what is printed of it, and the exit code.
* `refuse`, `inform` — what is printed when a command line asks for nothing or cannot be read.
-/

namespace BrakeCheck.CommandLine

/-- What a program leaves: an exit code and two texts. -/
structure Outcome where
  exitCode : Nat
  stdout : String := ""
  stderr : String := ""

/-- The exit code for a command line that cannot be read. -/
def usageExitCode : Nat := 2

/-- The exit code for a fault. -/
def faultExitCode : Nat := 101

/-! ### Texts -/

/-- The name and the version of the program. -/
def versionText : String := "aeb-verify 0.1.0\n"

/-- How the program is called. -/
def helpText : String :=
  "Satisfiability-based verification of AEB controller threshold logic\n\n"
    ++ "Usage: aeb-verify [OPTIONS]\n\nOptions:\n"
    ++ String.join (Setting.all.map fun s => "  " ++ s.describe ++ "\n")
    ++ "  -h, --help\n  -V, --version\n"

/-- How an entry is printed at a time of day; detailed entries name where they come from. -/
def renderEntry (clock : String) (e : Entry) : String :=
  let origin := if Level.debug.detail ≤ e.level.detail then " (1) " ++ e.origin.path ++ ":" else ""
  clock ++ " [" ++ e.level.name ++ "]" ++ origin ++ " " ++ e.text ++ "\n"

/-! ### Sessions -/

/-- A verification that has been carried out. -/
structure Session where
  case : VerificationCase
  verdict : Except Fault Verdict
  journal : Journal

namespace Session

/-- Carries out the verification that options ask for. -/
def start (o : Options) : Session :=
  let journal := (Journal.opened o.logLevel).note .debug .program ("args = " ++ o.render)
  let case := VerificationCase.ofCalibration o.calibration o.layout
  let config : SolverConfig := { maxTheoryChecks := o.maxChecks }
  let (verdict, journal) := (case.verify config).perform journal
  { case, verdict, journal }

/-- What is printed of a verification that took the given time, and the exit code. -/
def finish (s : Session) (clock elapsed : String) : Outcome :=
  let journal := s.journal.note .info .program ("verification took " ++ elapsed ++ " s")
  let log := String.join (journal.entries.toList.map (renderEntry clock))
  match s.verdict with
  | .ok verdict => ⟨verdict.exitCode, log ++ Report.render s.case verdict, ""⟩
  | .error fault => ⟨faultExitCode, log, fault.message ++ "\n"⟩

end Session

/-- What is printed when a command line cannot be read. -/
def refuse (e : UsageError) : Outcome :=
  { exitCode := usageExitCode
    stderr := e.message ++ "\n" }

/-- What is printed when a command line asks for a text alone. -/
def inform (text : String) : Outcome := { exitCode := 0, stdout := text }

end BrakeCheck.CommandLine
