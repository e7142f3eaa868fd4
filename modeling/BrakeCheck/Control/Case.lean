import BrakeCheck.Control.Calibration
import BrakeCheck.Control.Zone
import BrakeCheck.Verdict

/-!
# Verification cases

A case is a controller with a calibration: its formulas describe the controller, fix the numbers
of the calibration, and ask for full braking outside the zone of full braking.

## Main definitions

* `VerificationCase.ofCalibration` — the case of a calibration and a table layout.
* `VerificationCase.formulas` — the formulas that describe a violation.
* `VerificationCase.verify` — the verdict on a case.
-/

namespace BrakeCheck

/-- A controller, the numbers it is verified for, and the violation that is searched. -/
structure VerificationCase where
  signals : Signals
  thresholds : Thresholds
  params : BrakingParams
  zones : ZonePredicates
  table : DecisionTable
  controller : Formula
  parameterConstraints : List Formula
  property : Formula

namespace VerificationCase

/-- The formula that fixes a threshold, if it is to be fixed. -/
def pin (threshold : Term) (value : Option Rat) : List Formula :=
  value.toList.map fun q => threshold.eq (.const q)

/-- The formulas that fix the numbers of a calibration. -/
def parameterFormulas (params : BrakingParams) (thresholds : Thresholds) (c : Calibration) :
    List Formula :=
  [params.fbDecel.eq (.const c.fbDecel), params.pb2Decel.eq (.const c.pb2Decel),
    params.pb1Decel.eq (.const c.pb1Decel)]
  ++ pin thresholds.fbTime c.thresholds.fbTime ++ pin thresholds.pb2Time c.thresholds.pb2Time
  ++ pin thresholds.pb1Time c.thresholds.pb1Time ++ pin thresholds.fcwTime c.thresholds.fcwTime

/-- The case of a calibration and a table layout. -/
def ofCalibration (c : Calibration) (layout : TableLayout) : VerificationCase :=
  let signals : Signals := {}
  let thresholds : Thresholds := {}
  let params : BrakingParams := {}
  let zones := zonePredicates signals.ttc thresholds
  let table := layout.build zones signals.decel params
  { signals, thresholds, params, zones, table
    controller := table.toFormula
    parameterConstraints := parameterFormulas params thresholds c
    property := violation signals.decel params.fbDecel zones }

/-- The formulas that describe a violation. -/
def formulas (c : VerificationCase) : List Formula :=
  c.controller :: c.parameterConstraints ++ [c.property]

/-- The verdict on a case. -/
def verify (c : VerificationCase) (config : SolverConfig) : Step Journal Verdict :=
  BrakeCheck.verify c.formulas config

end VerificationCase

end BrakeCheck
