import BrakeCheck.Control.Case
import BrakeCheck.Proofs.Room

/-!
# Which calibrations can brake fully outside the zone of full braking

Full braking is commanded outside its zone if no braking at all is the same as full braking, or if
a rule of another zone commands it while the vehicle is in that zone and in no zone of a rule
before it.  Whether the vehicle can be there is a question of the thresholds: a free one can be
as large or as small as it has to be.  The verdict on a case is never at odds with this reading.

## Main definitions

* `Calibration.reachesBeyond` — a zone can reach beyond others.
* `Calibration.bad` — the calibrations under which a violation is possible.

## Main statements

* `VerificationCase.exists_violation_iff` — a violation is possible exactly if the calibration is
  bad.
* `VerificationCase.verdict_exact` — the verdict of the tool agrees with that.
-/

namespace BrakeCheck

namespace Calibration

/-! ### Thresholds -/

/-- The zone with the threshold `t` can reach beyond the zones with the thresholds `us`: the
threshold is free, or it is positive and above all of the others that are fixed. -/
def reachesBeyond (t : Option Rat) (us : List (Option Rat)) : Bool :=
  t.all fun q => 0 < q && us.all fun u => u.all fun p => p < q

/-- The calibrations under which full braking outside its zone is possible. -/
def bad (c : Calibration) : TableLayout → Bool
  | .standard =>
    c.fbDecel = 0 ||
      (c.fbDecel = c.pb2Decel && reachesBeyond c.thresholds.pb2Time [c.thresholds.fbTime]) ||
      (c.fbDecel = c.pb1Decel &&
        reachesBeyond c.thresholds.pb1Time [c.thresholds.fbTime, c.thresholds.pb2Time])
  | .priorityInverted =>
    c.fbDecel = 0 ||
      reachesBeyond c.thresholds.pb2Time [c.thresholds.fbTime] ||
      (c.fbDecel = c.pb1Decel &&
        reachesBeyond c.thresholds.pb1Time [c.thresholds.fbTime, c.thresholds.pb2Time])

/-- A number that a threshold may be: the one it is fixed to, or any if it is free. -/
def Allows (t : Option Rat) (q : Rat) : Prop := ∀ p, t = some p → q = p

theorem allows_none (q : Rat) : Allows none q := fun _ h => by cases h

theorem allows_some_iff {p q : Rat} : Allows (some p) q ↔ q = p :=
  ⟨fun h => h p rfl, fun h r hr => by cases hr; exact h⟩

/-- Fixed thresholds below `q` leave room for a positive time below `q`. -/
theorem exists_time_below {us : List (Option Rat)} {q : Rat} (hq : 0 < q)
    (hus : ∀ u ∈ us, ∀ p, u = some p → p < q) :
    ∃ time, 0 < time ∧ time < q ∧ ∀ u ∈ us, ∃ p, p ≤ time ∧ Allows u p := by
  induction us with
  | nil => exact ⟨q / 2, by linarith, by linarith, by simp⟩
  | cons u us ih =>
    obtain ⟨time, hpos, hlt, hrest⟩ := ih fun w hw => hus w (List.mem_cons_of_mem u hw)
    cases u with
    | none =>
      refine ⟨time, hpos, hlt, List.forall_mem_cons.2 ⟨⟨time, le_refl _, allows_none _⟩, hrest⟩⟩
    | some p =>
      -- the time is moved up to the threshold if that is later
      have hp := hus (some p) List.mem_cons_self p rfl
      refine ⟨max time p, lt_max_of_lt_left hpos, max_lt hlt hp, List.forall_mem_cons.2 ⟨?_, ?_⟩⟩
      · exact ⟨p, le_max_right _ _, allows_some_iff.2 rfl⟩
      · intro w hw
        obtain ⟨r, hr, hallows⟩ := hrest w hw
        exact ⟨r, le_trans hr (le_max_left _ _), hallows⟩

/-- Finitely many thresholds stay below some positive number. -/
theorem exists_above (us : List (Option Rat)) :
    ∃ q, 0 < q ∧ ∀ u ∈ us, ∀ p, u = some p → p < q := by
  induction us with
  | nil => exact ⟨1, zero_lt_one, by simp⟩
  | cons u us ih =>
    obtain ⟨q, hpos, hrest⟩ := ih
    cases u with
    | none =>
      refine ⟨q, hpos, List.forall_mem_cons.2 ⟨fun p hp => ?_, hrest⟩⟩
      cases hp
    | some r =>
      refine ⟨max q (r + 1), lt_max_of_lt_left hpos, List.forall_mem_cons.2 ⟨?_, ?_⟩⟩
      · intro p hp
        cases hp
        exact lt_max_of_lt_right (by linarith)
      · exact fun w hw p hp => lt_max_of_lt_left (hrest w hw p hp)

/-- A zone can reach beyond others exactly if some time before the collision is in it and in none
of the others, for thresholds as they may be. -/
theorem reachesBeyond_iff {t : Option Rat} {us : List (Option Rat)} :
    reachesBeyond t us ↔ ∃ time q, 0 < time ∧ time < q ∧ Allows t q ∧
      ∀ u ∈ us, ∃ p, p ≤ time ∧ Allows u p := by
  constructor
  · intro h
    cases t with
    | none =>
      obtain ⟨q, hpos, hus⟩ := exists_above us
      obtain ⟨time, htime, hlt, hrest⟩ := exists_time_below hpos hus
      exact ⟨time, q, htime, hlt, allows_none q, hrest⟩
    | some q =>
      simp only [reachesBeyond, Option.all_some, Bool.and_eq_true, decide_eq_true_eq,
        List.all_eq_true, Option.all_eq_true] at h
      obtain ⟨time, htime, hlt, hrest⟩ := exists_time_below h.1 h.2
      exact ⟨time, q, htime, hlt, allows_some_iff.2 rfl, hrest⟩
  · rintro ⟨time, q, hpos, hlt, hq, hus⟩
    cases t with
    | none => rfl
    | some r =>
      have hqr := allows_some_iff.1 hq
      subst hqr
      simp only [reachesBeyond, Option.all_some, Bool.and_eq_true, decide_eq_true_eq,
        List.all_eq_true, Option.all_eq_true]
      refine ⟨lt_trans hpos hlt, fun u hu p hp => ?_⟩
      obtain ⟨r, hr, hallows⟩ := hus u hu
      rw [← hallows p hp]
      exact lt_of_le_of_lt hr hlt

end Calibration

namespace VerificationCase

open Calibration

/-! ### Reading the formulas -/

variable {v : String → Rat}

/-- The vehicle is in the zone with a threshold. -/
def InZone (v : String → Rat) (threshold : String) : Prop :=
  v "TTC" < 0 ∧ -v "TTC" < v threshold

theorem eval_zonePredicate_iff (ttc threshold : Term) :
    (Zone.predicate ttc threshold).eval v = true ↔
      ttc.eval v < 0 ∧ -ttc.eval v < threshold.eval v := by
  have habs : ∀ q : Rat, (q.abs < threshold.eval v ∧ q < 0) ↔ (q < 0 ∧ -q < threshold.eval v) := by
    intro q
    unfold Rat.abs
    constructor
    · rintro ⟨h, hneg⟩
      rw [if_neg (not_le.2 hneg)] at h
      exact ⟨hneg, h⟩
    · rintro ⟨hneg, h⟩
      rw [if_neg (not_le.2 hneg)]
      exact ⟨h, hneg⟩
  simp only [Zone.predicate, Term.lt, Term.zero, Formula.eval, Formula.evalAll, Relation.holds,
    Bool.and_true, Bool.and_eq_true, decide_eq_true_eq]
  exact habs (ttc.eval v)

theorem eval_predicate_iff (threshold : String) :
    (Zone.predicate (.var "TTC") (.var threshold)).eval v = true ↔ InZone v threshold :=
  eval_zonePredicate_iff (.var "TTC") (.var threshold)

theorem eval_pin_iff (threshold : String) (value : Option Rat) :
    (∀ f ∈ pin (.var threshold) value, f.eval v = true) ↔ Allows value (v threshold) := by
  cases value with
  | none => simp [pin, allows_none]
  | some q =>
    simp only [pin, Option.toList_some, List.map_cons, List.map_nil, List.forall_mem_singleton,
      Term.eq, Formula.eval, Relation.holds, decide_eq_true_eq, allows_some_iff]
    exact Iff.rfl

/-- The numbers of a calibration, as values of the symbolic constants. -/
structure Fits (c : Calibration) (v : String → Rat) : Prop where
  fbDecel : v "FBdecel" = c.fbDecel
  pb2Decel : v "PB2decel" = c.pb2Decel
  pb1Decel : v "PB1decel" = c.pb1Decel
  fbTime : Allows c.thresholds.fbTime (v "FBtime")
  pb2Time : Allows c.thresholds.pb2Time (v "PB2time")
  pb1Time : Allows c.thresholds.pb1Time (v "PB1time")
  fcwTime : Allows c.thresholds.fcwTime (v "FCWtime")

theorem eval_parameterFormulas_iff (c : Calibration) :
    (∀ f ∈ parameterFormulas {} {} c, f.eval v = true) ↔ Fits c v := by
  have hdecel : (∀ f ∈ [(Term.var "FBdecel").eq (.const c.fbDecel),
      (Term.var "PB2decel").eq (.const c.pb2Decel), (Term.var "PB1decel").eq (.const c.pb1Decel)],
      f.eval v = true) ↔ v "FBdecel" = c.fbDecel ∧ v "PB2decel" = c.pb2Decel ∧
        v "PB1decel" = c.pb1Decel := by
    simp only [List.forall_mem_cons, List.not_mem_nil, false_implies, implies_true, and_true,
      Term.eq, Formula.eval, Relation.holds, decide_eq_true_eq]
    exact Iff.rfl
  unfold parameterFormulas
  simp only [List.forall_mem_append, hdecel, eval_pin_iff]
  constructor
  · rintro ⟨⟨⟨⟨⟨h1, h2, h3⟩, h4⟩, h5⟩, h6⟩, h7⟩
    exact ⟨h1, h2, h3, h4, h5, h6, h7⟩
  · rintro ⟨h1, h2, h3, h4, h5, h6, h7⟩
    exact ⟨⟨⟨⟨⟨h1, h2, h3⟩, h4⟩, h5⟩, h6⟩, h7⟩

/-- The deceleration that the controller commands: that of the first rule whose zone the vehicle
is in. -/
def Commands (v : String → Rat) : TableLayout → Prop
  | .standard =>
    InZone v "FBtime" ∧ v "decel" = v "FBdecel" ∨
    ¬ InZone v "FBtime" ∧ InZone v "PB2time" ∧ v "decel" = v "PB2decel" ∨
    ¬ InZone v "FBtime" ∧ ¬ InZone v "PB2time" ∧ InZone v "PB1time" ∧ v "decel" = v "PB1decel" ∨
    ¬ InZone v "FBtime" ∧ ¬ InZone v "PB2time" ∧ ¬ InZone v "PB1time" ∧ v "decel" = 0
  | .priorityInverted =>
    InZone v "PB2time" ∧ v "decel" = v "FBdecel" ∨
    ¬ InZone v "PB2time" ∧ InZone v "FBtime" ∧ v "decel" = v "FBdecel" ∨
    ¬ InZone v "PB2time" ∧ ¬ InZone v "FBtime" ∧ InZone v "PB1time" ∧ v "decel" = v "PB1decel" ∨
    ¬ InZone v "PB2time" ∧ ¬ InZone v "FBtime" ∧ ¬ InZone v "PB1time" ∧ v "decel" = 0

theorem eval_ite_iff (g a b : Formula) :
    (Formula.ite g a b).eval v = true ↔
      g.eval v = true ∧ a.eval v = true ∨ ¬ g.eval v = true ∧ b.eval v = true := by
  rw [Formula.eval]
  cases g.eval v <;> simp

theorem eval_eq_iff (a b : Term) : (a.eq b).eval v = true ↔ a.eval v = b.eval v := by
  simp only [Term.eq, Formula.eval, Relation.holds, decide_eq_true_eq]

/-- The table as a formula says what the controller commands.  The rule of the mere warning and
the default command the same. -/
theorem eval_controller_iff (c : Calibration) (layout : TableLayout) :
    (ofCalibration c layout).controller.eval v = true ↔ Commands v layout := by
  have hzone := fun threshold => eval_predicate_iff (v := v) threshold
  have hdecel : ∀ t : Term, ((Term.var "decel").eq t).eval v = true ↔ v "decel" = t.eval v :=
    fun t => eval_eq_iff (.var "decel") t
  have hwarning : ∀ e : Prop,
      InZone v "FCWtime" ∧ e ∨ ¬ InZone v "FCWtime" ∧ e ↔ e := by
    intro e
    rw [← or_and_right]
    exact and_iff_right (Classical.em _)
  cases layout with
  | standard =>
    simp only [ofCalibration, TableLayout.build, DecisionTable.empty, DecisionTable.addRule,
      DecisionTable.toFormula, List.cons_append, List.nil_append, List.foldr_cons, List.foldr_nil,
      Zone.rule, zonePredicates, Thresholds.get, eval_ite_iff, hzone, hdecel, hwarning, and_or_left]
    exact Iff.rfl
  | priorityInverted =>
    simp only [ofCalibration, TableLayout.build, DecisionTable.empty, DecisionTable.addRule,
      DecisionTable.toFormula, List.cons_append, List.nil_append, List.foldr_cons, List.foldr_nil,
      Zone.rule, zonePredicates, Thresholds.get, eval_ite_iff, hzone, hdecel, hwarning, and_or_left]
    exact Iff.rfl

/-- What the formulas of a case describe: the numbers of the calibration, the controller's command,
and full braking outside its zone. -/
theorem eval_formulas_iff (c : Calibration) (layout : TableLayout) :
    (∀ f ∈ (ofCalibration c layout).formulas, f.eval v = true) ↔
      Fits c v ∧ Commands v layout ∧ v "decel" = v "FBdecel" ∧ ¬ InZone v "FBtime" := by
  have hproperty : (ofCalibration c layout).property.eval v = true ↔
      v "decel" = v "FBdecel" ∧ ¬ InZone v "FBtime" := by
    have hzone := eval_predicate_iff (v := v) "FBtime"
    have hdecel := eval_eq_iff (v := v) (.var "decel") (.var "FBdecel")
    simp only [ofCalibration, violation, zonePredicates, Thresholds.get, Formula.eval,
      Formula.evalAll, Bool.and_true, Bool.and_eq_true, Bool.not_eq_true', ← Bool.not_eq_true,
      hzone, hdecel]
    exact Iff.rfl
  unfold formulas
  rw [List.cons_append, List.forall_mem_cons, List.forall_mem_append, List.forall_mem_singleton,
    eval_controller_iff, hproperty]
  have hparameters : (∀ f ∈ (ofCalibration c layout).parameterConstraints, f.eval v = true) ↔
      Fits c v := eval_parameterFormulas_iff c
  rw [hparameters]
  constructor
  · rintro ⟨hcommands, hfits, hviolation⟩
    exact ⟨hfits, hcommands, hviolation⟩
  · rintro ⟨hfits, hcommands, hviolation⟩
    exact ⟨hcommands, hfits, hviolation⟩

/-! ### From a violation to the calibration -/

/-- A zone that the vehicle is in reaches beyond the zones that it is not in. -/
theorem reachesBeyond_of_inZone {threshold : String} {t : Option Rat} (hzone : InZone v threshold)
    (ht : Allows t (v threshold)) {us : List (Option Rat)}
    (hus : ∀ u ∈ us, ∃ other, ¬ InZone v other ∧ Allows u (v other)) :
    reachesBeyond t us := by
  obtain ⟨hneg, hlt⟩ := hzone
  refine reachesBeyond_iff.2 ⟨-v "TTC", v threshold, by linarith, hlt, ht, fun u hu => ?_⟩
  obtain ⟨other, hother, hallows⟩ := hus u hu
  exact ⟨v other, not_lt.1 fun h => hother ⟨hneg, h⟩, hallows⟩

theorem bad_of_violation {c : Calibration} {layout : TableLayout} (hfits : Fits c v)
    (hcommands : Commands v layout) (hfull : v "decel" = v "FBdecel")
    (houtside : ¬ InZone v "FBtime") : c.bad layout := by
  -- the vehicle is outside the zone of full braking, and outside those of earlier rules
  have hfb : ∀ u ∈ [c.thresholds.fbTime], ∃ other, ¬ InZone v other ∧ Allows u (v other) := by
    intro u hu
    rw [List.mem_singleton.1 hu]
    exact ⟨"FBtime", houtside, hfits.fbTime⟩
  have hfbpb2 : ¬ InZone v "PB2time" → ∀ u ∈ [c.thresholds.fbTime, c.thresholds.pb2Time],
      ∃ other, ¬ InZone v other ∧ Allows u (v other) := by
    intro hpb2 u hu
    rcases List.mem_cons.1 hu with rfl | hu
    · exact ⟨"FBtime", houtside, hfits.fbTime⟩
    · rw [List.mem_singleton.1 hu]
      exact ⟨"PB2time", hpb2, hfits.pb2Time⟩
  have hdecel : c.fbDecel = v "decel" := by rw [hfull, hfits.fbDecel]
  cases layout with
  | standard =>
    simp only [bad, Bool.or_eq_true, Bool.and_eq_true, decide_eq_true_eq]
    rcases hcommands with ⟨hin, -⟩ | ⟨-, hin, hcommand⟩ | ⟨-, hpb2, hin, hcommand⟩ | ⟨-, -, -, hcommand⟩
    · exact absurd hin houtside
    · refine Or.inl (Or.inr ⟨?_, reachesBeyond_of_inZone hin hfits.pb2Time hfb⟩)
      rw [hdecel, hcommand, hfits.pb2Decel]
    · refine Or.inr ⟨?_, reachesBeyond_of_inZone hin hfits.pb1Time (hfbpb2 hpb2)⟩
      rw [hdecel, hcommand, hfits.pb1Decel]
    · exact Or.inl (Or.inl (hdecel.trans hcommand))
  | priorityInverted =>
    simp only [bad, Bool.or_eq_true, Bool.and_eq_true, decide_eq_true_eq]
    rcases hcommands with ⟨hin, -⟩ | ⟨-, hin, -⟩ | ⟨hpb2, -, hin, hcommand⟩ | ⟨-, -, -, hcommand⟩
    · exact Or.inl (Or.inr (reachesBeyond_of_inZone hin hfits.pb2Time hfb))
    · exact absurd hin houtside
    · refine Or.inr ⟨?_, reachesBeyond_of_inZone hin hfits.pb1Time (hfbpb2 hpb2)⟩
      rw [hdecel, hcommand, hfits.pb1Decel]
    · exact Or.inl (Or.inl (hdecel.trans hcommand))

/-! ### From the calibration to a violation -/

/-- The values of the symbolic constants when the controller of a calibration brakes fully, for a
time to collision and given thresholds. -/
def scenario (c : Calibration) (ttc fbTime pb2Time pb1Time : Rat) (x : String) : Rat :=
  if x = "TTC" then ttc
  else if x = "FBtime" then fbTime
  else if x = "PB2time" then pb2Time
  else if x = "PB1time" then pb1Time
  else if x = "FCWtime" then c.thresholds.fcwTime.getD 0
  else if x = "PB2decel" then c.pb2Decel
  else if x = "PB1decel" then c.pb1Decel
  else c.fbDecel

theorem allows_getD (t : Option Rat) : Allows t (t.getD 0) := by
  cases t with
  | none => exact allows_none 0
  | some q => exact allows_some_iff.2 rfl

/-- A scenario in which the controller brakes fully outside the zone of full braking is a
violation. -/
theorem violation_of_scenario {c : Calibration} {layout : TableLayout} (ttc : Rat)
    {fbTime pb2Time pb1Time : Rat} (hfb : Allows c.thresholds.fbTime fbTime)
    (hpb2 : Allows c.thresholds.pb2Time pb2Time) (hpb1 : Allows c.thresholds.pb1Time pb1Time)
    (hcommands : Commands (scenario c ttc fbTime pb2Time pb1Time) layout)
    (houtside : ¬ (ttc < 0 ∧ -ttc < fbTime)) :
    ∃ v, ∀ f ∈ (ofCalibration c layout).formulas, f.eval v = true := by
  refine ⟨scenario c ttc fbTime pb2Time pb1Time, (eval_formulas_iff c layout).2
    ⟨?_, hcommands, rfl, houtside⟩⟩
  exact ⟨rfl, rfl, rfl, hfb, hpb2, hpb1, allows_getD _⟩

/-- Without braking the controller commands no deceleration, in no zone. -/
theorem violation_of_no_braking {c : Calibration} (layout : TableLayout) (h : c.fbDecel = 0) :
    ∃ v, ∀ f ∈ (ofCalibration c layout).formulas, f.eval v = true := by
  -- at the time zero the vehicle is in no zone
  have houtside : ∀ q : Rat, ¬ ((0 : Rat) < 0 ∧ -(0 : Rat) < q) := fun q hin => lt_irrefl 0 hin.1
  refine violation_of_scenario 0 (allows_getD _) (allows_getD _) (allows_getD _) ?_
    (houtside _)
  cases layout with
  | standard => exact Or.inr (Or.inr (Or.inr ⟨houtside _, houtside _, houtside _, h⟩))
  | priorityInverted => exact Or.inr (Or.inr (Or.inr ⟨houtside _, houtside _, houtside _, h⟩))

/-- Strong partial braking that reaches beyond full braking is a violation if its rule commands
full braking. -/
theorem violation_of_reachesBeyond_fb {c : Calibration} {layout : TableLayout}
    (hreach : reachesBeyond c.thresholds.pb2Time [c.thresholds.fbTime])
    (hcommand : layout = .standard → c.fbDecel = c.pb2Decel) :
    ∃ v, ∀ f ∈ (ofCalibration c layout).formulas, f.eval v = true := by
  obtain ⟨time, q, hpos, hlt, hq, hus⟩ := reachesBeyond_iff.1 hreach
  obtain ⟨p, hp, hfb⟩ := hus _ List.mem_cons_self
  have hin : -time < 0 ∧ - -time < q := ⟨by linarith, by linarith⟩
  have hout : ¬ (-time < 0 ∧ - -time < p) := fun h => by linarith [h.2]
  refine violation_of_scenario (-time) hfb hq (allows_getD _) ?_ hout
  cases layout with
  | standard => exact Or.inr (Or.inl ⟨hout, hin, hcommand rfl⟩)
  | priorityInverted => exact Or.inl ⟨hin, rfl⟩

/-- Weak partial braking that reaches beyond both other zones is a violation if it is as strong as
full braking. -/
theorem violation_of_reachesBeyond_both {c : Calibration} (layout : TableLayout)
    (hreach : reachesBeyond c.thresholds.pb1Time [c.thresholds.fbTime, c.thresholds.pb2Time])
    (hcommand : c.fbDecel = c.pb1Decel) :
    ∃ v, ∀ f ∈ (ofCalibration c layout).formulas, f.eval v = true := by
  obtain ⟨time, q, hpos, hlt, hq, hus⟩ := reachesBeyond_iff.1 hreach
  obtain ⟨p, hp, hfb⟩ := hus _ List.mem_cons_self
  obtain ⟨r, hr, hpb2⟩ := hus _ (List.mem_cons_of_mem _ List.mem_cons_self)
  have hin : -time < 0 ∧ - -time < q := ⟨by linarith, by linarith⟩
  have hout : ∀ u, u ≤ time → ¬ (-time < 0 ∧ - -time < u) := fun u hu h => by linarith [h.2]
  refine violation_of_scenario (-time) hfb hpb2 hq ?_ (hout p hp)
  cases layout with
  | standard => exact Or.inr (Or.inr (Or.inl ⟨hout p hp, hout r hr, hin, hcommand⟩))
  | priorityInverted => exact Or.inr (Or.inr (Or.inl ⟨hout r hr, hout p hp, hin, hcommand⟩))

theorem violation_of_bad {c : Calibration} {layout : TableLayout} (h : c.bad layout) :
    ∃ v, ∀ f ∈ (ofCalibration c layout).formulas, f.eval v = true := by
  cases layout with
  | standard =>
    simp only [bad, Bool.or_eq_true, Bool.and_eq_true, decide_eq_true_eq] at h
    rcases h with (hnone | ⟨hcommand, hreach⟩) | ⟨hcommand, hreach⟩
    · exact violation_of_no_braking .standard hnone
    · exact violation_of_reachesBeyond_fb hreach fun _ => hcommand
    · exact violation_of_reachesBeyond_both .standard hreach hcommand
  | priorityInverted =>
    simp only [bad, Bool.or_eq_true, Bool.and_eq_true, decide_eq_true_eq] at h
    rcases h with (hnone | hreach) | ⟨hcommand, hreach⟩
    · exact violation_of_no_braking .priorityInverted hnone
    · exact violation_of_reachesBeyond_fb hreach fun h => by cases h
    · exact violation_of_reachesBeyond_both .priorityInverted hreach hcommand

/-! ### The verdict -/

/-- A violation is possible exactly if the calibration is bad. -/
theorem exists_violation_iff (c : Calibration) (layout : TableLayout) :
    (∃ v, ∀ f ∈ (ofCalibration c layout).formulas, f.eval v = true) ↔ c.bad layout := by
  refine ⟨fun ⟨v, hv⟩ => ?_, violation_of_bad⟩
  obtain ⟨hfits, hcommands, hfull, houtside⟩ := (eval_formulas_iff c layout).1 hv
  exact bad_of_violation hfits hcommands hfull houtside

/-- The verdict on a calibration is exact, as long as all nodes can be referred to: a bad one is
never proved, and none but a bad one is ever found to be violated. -/
theorem verdict_exact (c : Calibration) (layout : TableLayout) (config : SolverConfig)
    (journal : Journal) (hroom : Solver.Room (ofCalibration c layout).formulas config journal) :
    (c.bad layout → ∀ j, ((ofCalibration c layout).verify config).perform journal ≠
      (.ok .proved, j)) ∧
    (¬ c.bad layout → ∀ m j, ((ofCalibration c layout).verify config).perform journal ≠
      (.ok (.violated m), j)) := by
  constructor
  · intro hbad j hj
    obtain ⟨v, hv⟩ := (exists_violation_iff c layout).2 hbad
    have hnone : Solver.Means (ofCalibration c layout).formulas .proved :=
      means_of_verify hroom ⟨j, hj⟩
    exact hnone v hv
  · intro hgood m j hj
    have hmodel : Solver.Means (ofCalibration c layout).formulas (.violated m) :=
      means_of_verify hroom ⟨j, hj⟩
    exact hgood ((exists_violation_iff c layout).1 ⟨_, hmodel.2⟩)

/-- After the formulas of the default calibration there is room for a check, and the default budget
allows all paths of their conjunction. -/
theorem exists_spare_of_defaults (layout : TableLayout) :
    ∃ t, Solver.create { bucketBits := 6 } .closed = .ok t ∧
      ((Solver.addAll (ofCalibration {} layout).formulas).perform t).2.Spare ∧
      ((Solver.addAll (ofCalibration {} layout).formulas).perform t).2.skeleton.manager.pathCount
          ((Solver.addAll (ofCalibration {} layout).formulas).perform t).2.root ≤
        ((Solver.addAll (ofCalibration {} layout).formulas).perform t).2.config.maxTheoryChecks := by
  obtain ⟨m, hm⟩ := Manager.exists_create (show 6 ≤ 24 by decide) .closed
  obtain rfl := Manager.eq_of_create hm
  refine ⟨_, Solver.create_of_manager { bucketBits := 6 } hm, ?_⟩
  cases layout with
  | standard => decide +kernel
  | priorityInverted => decide +kernel

/-- With the default decelerations, free thresholds and the default configuration the tool decides
both layouts: the table with the wrong priority is found to be violated, and the other one is
proved. -/
theorem verdict_exact_of_defaults :
    (Calibration.bad {} .priorityInverted ∧
      (∀ j, ((ofCalibration {} .priorityInverted).verify {}).perform .closed ≠ (.ok .proved, j)) ∧
      ∃ m j, ((ofCalibration {} .priorityInverted).verify {}).perform .closed =
        (.ok (.violated m), j)) ∧
    ¬ Calibration.bad {} .standard ∧
      (∀ m j, ((ofCalibration {} .standard).verify {}).perform .closed ≠ (.ok (.violated m), j)) ∧
      ∃ j, ((ofCalibration {} .standard).verify {}).perform .closed = (.ok .proved, j) := by
  have hinverted : Calibration.bad {} .priorityInverted := by decide +kernel
  have hstandard : ¬ Calibration.bad {} .standard := by decide +kernel
  obtain ⟨t, ht, hspare, hpaths⟩ := exists_spare_of_defaults .priorityInverted
  obtain ⟨u, hu, hspare', hpaths'⟩ := exists_spare_of_defaults .standard
  have hnever := (verdict_exact {} .priorityInverted {} .closed
    (Solver.room_of_spare ht hspare rfl)).1 hinverted
  have hnever' := (verdict_exact {} .standard {} .closed
    (Solver.room_of_spare hu hspare' rfl)).2 hstandard
  refine ⟨⟨hinverted, hnever, ?_⟩, hstandard, hnever', ?_⟩
  · obtain ⟨verdict, j, hverdict, hdecided⟩ :=
      Solver.decided_of_spare (show ({} : SolverConfig).bucketBits ≤ 24 by decide) ht hspare hpaths rfl
    cases verdict with
    | violated m => exact ⟨m, j, hverdict⟩
    | proved => exact absurd hverdict (hnever j)
    | inconclusive n => exact absurd rfl hdecided
  · obtain ⟨verdict, j, hverdict, hdecided⟩ :=
      Solver.decided_of_spare (show ({} : SolverConfig).bucketBits ≤ 24 by decide) hu hspare' hpaths'
        rfl
    cases verdict with
    | violated m => exact absurd hverdict (hnever' m j)
    | proved => exact ⟨j, hverdict⟩
    | inconclusive n => exact absurd rfl hdecided

end VerificationCase

end BrakeCheck
