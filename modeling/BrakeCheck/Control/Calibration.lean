import BrakeCheck.Rational.Decimal

/-!
# Calibrations

The numbers that a controller is verified for: the decelerations, and threshold times that are
either fixed or left open.

## Main definitions

* `Calibration`, `ThresholdValues` — the numbers, with their defaults.
* `ThresholdValues.reference`, `Calibration.reference` — the thresholds of the reference design.
-/

namespace BrakeCheck

namespace Calibration

/-- The deceleration of full braking. -/
def defaultFbDecel : Decimal := ⟨98, 1⟩

/-- The deceleration of the second partial braking zone. -/
def defaultPb2Decel : Decimal := ⟨53, 1⟩

/-- The deceleration of the first partial braking zone. -/
def defaultPb1Decel : Decimal := ⟨38, 1⟩

/-- The threshold of full braking in the reference design. -/
def referenceFbTime : Decimal := ⟨6, 1⟩

/-- The threshold of the second partial braking zone in the reference design. -/
def referencePb2Time : Decimal := ⟨8, 1⟩

/-- The threshold of the first partial braking zone in the reference design. -/
def referencePb1Time : Decimal := ⟨12, 1⟩

/-- The threshold of the collision warning in the reference design. -/
def referenceFcwTime : Decimal := ⟨20, 1⟩

end Calibration

/-- The thresholds that are fixed; the others may be any number. -/
structure ThresholdValues where
  fbTime : Option Rat := none
  pb2Time : Option Rat := none
  pb1Time : Option Rat := none
  fcwTime : Option Rat := none
  deriving DecidableEq

namespace ThresholdValues

/-- All thresholds fixed. -/
def pinned (fb pb2 pb1 fcw : Rat) : ThresholdValues := ⟨some fb, some pb2, some pb1, some fcw⟩

/-- The thresholds of the reference design. -/
def reference : ThresholdValues :=
  pinned Calibration.referenceFbTime.toRat Calibration.referencePb2Time.toRat
    Calibration.referencePb1Time.toRat Calibration.referenceFcwTime.toRat

/-- Whether no threshold is fixed. -/
def isFree (t : ThresholdValues) : Bool :=
  t.fbTime.isNone && t.pb2Time.isNone && t.pb1Time.isNone && t.fcwTime.isNone

end ThresholdValues

/-- The numbers that a controller is verified for. -/
structure Calibration where
  fbDecel : Rat := Calibration.defaultFbDecel.toRat
  pb2Decel : Rat := Calibration.defaultPb2Decel.toRat
  pb1Decel : Rat := Calibration.defaultPb1Decel.toRat
  thresholds : ThresholdValues := ThresholdValues.mk none none none none
  deriving DecidableEq

/-- The default decelerations with the thresholds of the reference design. -/
def Calibration.reference : Calibration := { thresholds := ThresholdValues.reference }

end BrakeCheck
