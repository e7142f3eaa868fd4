import BrakeCheck.Control.Case

/-!
# Reports

The text that tells a user what was searched and what was found.

## Main definitions

* `Report.render` — the report on a case and a verdict.
-/

namespace BrakeCheck.Report

/-- The lines that describe the violation searched, a conjunction member by member. -/
def propertyLines : Formula → List String
  | .and fs =>
    fs.mapIdx fun i f =>
      "[INFO]   " ++ (if i = 0 then "" else "AND ") ++ toString (i + 1) ++ ". " ++ f.render
  | f => ["[INFO]   1. " ++ f.render]

/-- The lines that describe a verdict. -/
def verdictLines (c : VerificationCase) : Verdict → List String
  | .violated m =>
    ["[BUG FOUND!] A scenario violating the safety property exists.",
      "The system can apply full brakes under unsafe conditions.",
      "Model that triggers the bug:"]
    ++ m.toList.map fun e => "  " ++ Model.renderEntry e
  | .proved =>
    ["[PROPERTY VERIFIED!] No counterexample exists.",
      "The system applies full brakes ONLY when the condition",
      "'" ++ (c.zones .fullBraking).render ++ "' is met."]
  | .inconclusive theoryChecks =>
    ["[INCONCLUSIVE] Search budget exhausted after " ++ toString theoryChecks
      ++ " theory checks; nothing was proved."]

/-- The lines of the report on a case and a verdict. -/
def lines (c : VerificationCase) (v : Verdict) : List String :=
  ["--- AEB Controller Logic Verification ---", "",
    "[INFO] Verifying property: "
      ++ "'The system should NOT apply full brakes when the situation is safe.'",
    "[INFO] Searching for a counterexample where:"]
  ++ propertyLines c.property
  ++ ["", "--- Solver Result ---", "Result: " ++ v.answer.render, ""]
  ++ verdictLines c v

/-- The report on a case and a verdict; every line ends with a line break. -/
def render (c : VerificationCase) (v : Verdict) : String :=
  String.join ((lines c v).map (· ++ "\n"))

end BrakeCheck.Report
