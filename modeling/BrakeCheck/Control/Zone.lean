import BrakeCheck.Control.DecisionTable

/-!
# Braking zones and the controller

An emergency braking controller acts on the time to collision, which is negative while the
vehicle approaches an obstacle.  Each zone has a threshold time; the vehicle is in the zone when
it approaches and the time left is below the threshold.  The zones are asked in the order of
their urgency, and the first one that holds decides on the deceleration.

## Main definitions

* `Zone`, `Zone.predicate` — the zones, and when the vehicle is in one.
* `TableLayout.build` — the decision table of the controller, as designed or with the two most
  urgent rules exchanged.
* `violation` — full braking outside the zone of full braking.
-/

namespace BrakeCheck

/-- The zones, from the most urgent one to the mere warning. -/
inductive Zone where
  | fullBraking
  | partialBraking2
  | partialBraking1
  | collisionWarning
  deriving DecidableEq

namespace Zone

/-- The zones by falling urgency. -/
def priority : List Zone := [fullBraking, partialBraking2, partialBraking1, collisionWarning]

/-- The name of a zone, which is also the label of its rule. -/
def name : Zone → String
  | fullBraking => "is_full_braking_zone"
  | partialBraking2 => "is_pb2_braking_zone"
  | partialBraking1 => "is_pb1_braking_zone"
  | collisionWarning => "is_fcw_zone"

/-- The vehicle is in the zone with a threshold: it approaches, and the time to collision is
below the threshold. -/
def predicate (ttc threshold : Term) : Formula :=
  .and [(Term.abs ttc).lt threshold, ttc.lt .zero]

end Zone

/-- The time to collision, and the deceleration that the controller commands. -/
structure Signals where
  ttc : Term := .var "TTC"
  decel : Term := .var "decel"

/-- The threshold times of the zones. -/
structure Thresholds where
  fbTime : Term := .var "FBtime"
  pb2Time : Term := .var "PB2time"
  pb1Time : Term := .var "PB1time"
  fcwTime : Term := .var "FCWtime"

/-- The threshold time of a zone. -/
def Thresholds.get (t : Thresholds) : Zone → Term
  | .fullBraking => t.fbTime
  | .partialBraking2 => t.pb2Time
  | .partialBraking1 => t.pb1Time
  | .collisionWarning => t.fcwTime

/-- The decelerations of the braking zones. -/
structure BrakingParams where
  fbDecel : Term := .var "FBdecel"
  pb2Decel : Term := .var "PB2decel"
  pb1Decel : Term := .var "PB1decel"

/-- When the vehicle is in each of the zones. -/
abbrev ZonePredicates := Zone → Formula

/-- When the vehicle is in each of the zones, given the time to collision and the thresholds. -/
def zonePredicates (ttc : Term) (thresholds : Thresholds) : ZonePredicates :=
  fun zone => Zone.predicate ttc (thresholds.get zone)

/-- The rule that commands a deceleration in a zone. -/
def Zone.rule (zone : Zone) (zones : ZonePredicates) (decel command : Term) : Rule :=
  ⟨zone.name, zones zone, decel.eq command⟩

/-- The order of the rules in the controller's table. -/
inductive TableLayout where
  /-- By falling urgency. -/
  | standard
  /-- The second zone comes first, and brakes fully. -/
  | priorityInverted
  deriving DecidableEq

namespace TableLayout

/-- The decision table of the controller. -/
def build (layout : TableLayout) (zones : ZonePredicates) (decel : Term) (params : BrakingParams) :
    DecisionTable :=
  let table := DecisionTable.empty (decel.eq .zero)
  let urgent :=
    match layout with
    | standard =>
      table.addRule (Zone.fullBraking.rule zones decel params.fbDecel)
        |>.addRule (Zone.partialBraking2.rule zones decel params.pb2Decel)
    | priorityInverted =>
      table.addRule (Zone.partialBraking2.rule zones decel params.fbDecel)
        |>.addRule (Zone.fullBraking.rule zones decel params.fbDecel)
  urgent.addRule (Zone.partialBraking1.rule zones decel params.pb1Decel)
    |>.addRule (Zone.collisionWarning.rule zones decel .zero)

end TableLayout

/-- What must not happen: full braking outside the zone of full braking. -/
def violation (decel fbDecel : Term) (zones : ZonePredicates) : Formula :=
  .and [decel.eq fbDecel, .not (zones .fullBraking)]

end BrakeCheck
