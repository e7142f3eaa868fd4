import BrakeCheck.Proofs.Control
import BrakeCheck.Proofs.Dependence
import BrakeCheck.Proofs.FirstMatch

/-!
# What the controller commands

Both tables of the controller are ladders.  Each rung is a zone with a command, and the first
rung whose zone the vehicle is in decides; below the last one no braking is commanded.  As a
formula, a ladder says that the deceleration equals the command, and as neither the zones nor the
commands look at the deceleration, there is exactly one that does.

When the vehicle gets closer it enters zones and leaves none, so the deciding rung moves up.  The
commands of both layouts fall from rung to rung, in whatever order the zones are asked, and so
the deceleration cannot fall.

## Main definitions

* `DecisionTable.ladder`, `Zone.command` — a ladder, and what it commands.
* `TableLayout.rungs` — the rungs of the controller's tables.
* `TableLayout.controller` — the controller over the symbolic constants that it has by default.

## Main statements

* `Zone.command_le` — on a falling ladder the command does not fall while zones are entered.
* `TableLayout.build_determines` — every model determines the deceleration.
* `TableLayout.controller_brakes_closer` — the controller does not brake less closer by.
-/

namespace BrakeCheck

/-! ### Ladders -/

namespace DecisionTable

/-- The table in which each of a list of zones has a command, and there is no braking outside. -/
def ladder (zones : ZonePredicates) (decel : Term) (rungs : List (Zone × Term)) :
    DecisionTable where
  rules := rungs.map fun r => r.1.rule zones decel r.2
  default := decel.eq .zero

end DecisionTable

/-! ### The command of a ladder -/

namespace Zone

variable {zones : ZonePredicates} {m m₁ m₂ : Model} {rungs : List (Zone × Term)}

/-- The command of the first rung whose zone the vehicle is in. -/
def command (zones : ZonePredicates) (m : Model) : List (Zone × Term) → Term
  | [] => .zero
  | r :: rungs => if m.eval (zones r.1) then r.2 else command zones m rungs

theorem command_cons_of_mem {r : Zone × Term} (h : m.eval (zones r.1) = true) :
    command zones m (r :: rungs) = r.2 := if_pos h

theorem command_cons_of_not_mem {r : Zone × Term} (h : ¬ m.eval (zones r.1) = true) :
    command zones m (r :: rungs) = command zones m rungs := if_neg h

theorem command_eq_zero (h : ∀ r ∈ rungs, ¬ m.eval (zones r.1) = true) :
    command zones m rungs = .zero := by
  induction rungs with
  | nil => rfl
  | cons r rungs ih =>
    rw [command_cons_of_not_mem (h r List.mem_cons_self)]
    exact ih fun s hs => h s (List.mem_cons_of_mem r hs)

/-- A ladder commands what one of its rungs does, or nothing. -/
theorem command_mem (zones : ZonePredicates) (m : Model) (rungs : List (Zone × Term)) :
    command zones m rungs ∈ rungs.map Prod.snd ++ [.zero] := by
  induction rungs with
  | nil => exact List.mem_singleton_self _
  | cons r rungs ih =>
    by_cases h : m.eval (zones r.1) = true
    · rw [command_cons_of_mem h]
      exact List.mem_cons_self
    · rw [command_cons_of_not_mem h]
      exact List.mem_cons_of_mem _ ih

theorem command_congr (h : ∀ r ∈ rungs, m₁.eval (zones r.1) = m₂.eval (zones r.1)) :
    command zones m₁ rungs = command zones m₂ rungs := by
  induction rungs with
  | nil => rfl
  | cons r rungs ih =>
    rw [command, command, h r List.mem_cons_self, ih fun s hs => h s (List.mem_cons_of_mem r hs)]

theorem evalTerm_command_le {q : Rat} (h : ∀ r ∈ rungs, m.evalTerm r.2 ≤ q) (hq : 0 ≤ q) :
    m.evalTerm (command zones m rungs) ≤ q := by
  rcases List.mem_append.1 (command_mem zones m rungs) with hmem | hzero
  · obtain ⟨r, hr, heq⟩ := List.mem_map.1 hmem
    exact heq ▸ h r hr
  · rw [List.mem_singleton.1 hzero]
    exact hq

/-- On a ladder with falling commands, none of them negative, the command does not fall while
zones are entered and none is left. -/
theorem command_le (henter : ∀ r ∈ rungs, m₁.eval (zones r.1) = true → m₂.eval (zones r.1) = true)
    (hsame : ∀ r ∈ rungs, m₁.evalTerm r.2 = m₂.evalTerm r.2)
    (hfalling : rungs.Pairwise fun r s => m₁.evalTerm s.2 ≤ m₁.evalTerm r.2)
    (hnonneg : ∀ r ∈ rungs, 0 ≤ m₁.evalTerm r.2) :
    m₁.evalTerm (command zones m₁ rungs) ≤ m₂.evalTerm (command zones m₂ rungs) := by
  induction rungs with
  | nil => exact le_refl 0
  | cons r rungs ih =>
    obtain ⟨henterR, henterRest⟩ := List.forall_mem_cons.1 henter
    obtain ⟨hsameR, hsameRest⟩ := List.forall_mem_cons.1 hsame
    obtain ⟨hfallingR, hfallingRest⟩ := List.pairwise_cons.1 hfalling
    obtain ⟨hnonnegR, hnonnegRest⟩ := List.forall_mem_cons.1 hnonneg
    by_cases h₂ : m₂.eval (zones r.1) = true
    · -- the rung decides later on, and no rung from there on commands more
      rw [command_cons_of_mem h₂, ← hsameR]
      exact evalTerm_command_le (List.forall_mem_cons.2 ⟨le_refl _, hfallingR⟩) hnonnegR
    · rw [command_cons_of_not_mem h₂, command_cons_of_not_mem (mt henterR h₂)]
      exact ih henterRest hsameRest hfallingRest hnonnegRest

end Zone

namespace DecisionTable

/-- What is in force on a ladder is that the deceleration is the one commanded. -/
theorem consequence_ladder (zones : ZonePredicates) (decel : Term) (m : Model)
    (rungs : List (Zone × Term)) :
    (ladder zones decel rungs).consequence m = decel.eq (Zone.command zones m rungs) := by
  induction rungs with
  | nil => rfl
  | cons r rungs ih =>
    have hcons : (ladder zones decel (r :: rungs)).consequence m =
        if m.eval (zones r.1) then decel.eq r.2 else (ladder zones decel rungs).consequence m :=
      consequence_cons m _ _ _
    rw [hcons, ih, Zone.command]
    exact (apply_ite decel.eq _ _ _).symm

/-- As a formula, a ladder says that the deceleration is the one commanded. -/
theorem eval_ladder_iff (zones : ZonePredicates) (decel : Term) (m : Model)
    (rungs : List (Zone × Term)) :
    m.eval (ladder zones decel rungs).toFormula = true ↔
      m.evalTerm decel = m.evalTerm (Zone.command zones m rungs) := by
  rw [eval_toFormula, consequence_ladder]
  exact VerificationCase.eval_eq_iff _ _

end DecisionTable

/-! ### The tables of the controller -/

namespace TableLayout

/-- The zones in the order of their rules, each with what is commanded there. -/
def rungs (params : BrakingParams) : TableLayout → List (Zone × Term)
  | standard =>
    [(.fullBraking, params.fbDecel), (.partialBraking2, params.pb2Decel),
      (.partialBraking1, params.pb1Decel), (.collisionWarning, .zero)]
  | priorityInverted =>
    [(.partialBraking2, params.fbDecel), (.fullBraking, params.fbDecel),
      (.partialBraking1, params.pb1Decel), (.collisionWarning, .zero)]

/-- The table of the controller is a ladder: the rules of its rungs have been added one after the
other. -/
theorem build_eq_ladder (layout : TableLayout) (zones : ZonePredicates) (decel : Term)
    (params : BrakingParams) :
    layout.build zones decel params = .ladder zones decel (layout.rungs params) := by
  have hadded : layout.build zones decel params =
      ((layout.rungs params).map fun r => r.1.rule zones decel r.2).foldl DecisionTable.addRule
        (.empty (decel.eq .zero)) := by
    cases layout with
    | standard => rfl
    | priorityInverted => rfl
  rw [hadded, DecisionTable.foldl_addRule]
  rfl

theorem rungs_subset (layout : TableLayout) (params : BrakingParams) :
    (layout.rungs params).map Prod.snd ++ [.zero] ⊆
      [params.fbDecel, params.pb2Decel, params.pb1Decel, .zero] := by
  cases layout <;> simp [rungs]

/-- A controller commands one of its decelerations or none. -/
theorem command_mem_params (layout : TableLayout) (zones : ZonePredicates) (m : Model)
    (params : BrakingParams) :
    Zone.command zones m (layout.rungs params) ∈
      [params.fbDecel, params.pb2Decel, params.pb1Decel, .zero] :=
  rungs_subset layout params (Zone.command_mem zones m (layout.rungs params))

/-- A symbolic constant that occurs in none of the terms of a zone does not occur in its
predicate. -/
theorem not_mem_names_zonePredicates {y : String} {ttc : Term} {thresholds : Thresholds}
    (httc : y ∉ ttc.names) (zone : Zone) (hthreshold : y ∉ (thresholds.get zone).names) :
    y ∉ (zonePredicates ttc thresholds zone).names := by
  simp only [zonePredicates, Zone.predicate, Term.lt, Term.zero, Formula.names, Formula.namesOfAll,
    Term.names, List.mem_append, List.not_mem_nil, or_false, not_or]
  exact ⟨⟨httc, hthreshold⟩, httc⟩

/-- The controller is a total function of its inputs.  If the deceleration is a symbolic constant
that occurs neither in the zones nor in the commands, then under every model exactly one value of
it satisfies the formula of the table, and that is the value of what the consequence in force
commands. -/
theorem build_determines (layout : TableLayout) (y : String) (ttc : Term) (thresholds : Thresholds)
    (params : BrakingParams) (httc : y ∉ ttc.names)
    (hthresholds : ∀ zone, y ∉ (thresholds.get zone).names)
    (hparams : ∀ t ∈ [params.fbDecel, params.pb2Decel, params.pb1Decel], y ∉ t.names) (m : Model) :
    ∃ command ∈ [params.fbDecel, params.pb2Decel, params.pb1Decel, .zero],
      (layout.build (zonePredicates ttc thresholds) (.var y) params).consequence m =
        (Term.var y).eq command ∧
      ∀ d, Model.eval (m.insert y d)
          (layout.build (zonePredicates ttc thresholds) (.var y) params).toFormula = true ↔
        d = m.evalTerm command := by
  have hmem := command_mem_params layout (zonePredicates ttc thresholds) m params
  rw [build_eq_ladder]
  refine ⟨_, hmem, DecisionTable.consequence_ladder _ _ m _, fun d => ?_⟩
  -- the other value of the deceleration changes neither the zones nor the command
  have hzones : Zone.command (zonePredicates ttc thresholds) (m.insert y d) (layout.rungs params) =
      Zone.command (zonePredicates ttc thresholds) m (layout.rungs params) :=
    Zone.command_congr fun r _ =>
      Model.eval_insert m (not_mem_names_zonePredicates httc r.1 (hthresholds r.1)) d
  have hall : ∀ t ∈ [params.fbDecel, params.pb2Decel, params.pb1Decel] ++ [.zero], y ∉ t.names :=
    List.forall_mem_append.2 ⟨hparams, List.forall_mem_singleton.2 List.not_mem_nil⟩
  have hfree : y ∉ (Zone.command (zonePredicates ttc thresholds) m (layout.rungs params)).names :=
    hall _ hmem
  rw [DecisionTable.eval_ladder_iff, hzones, Model.evalTerm_insert m hfree]
  have hvar : Model.evalTerm (m.insert y d) (.var y) = d := Model.value_insert_self m y d
  rw [hvar]

/-- The decelerations of a controller that brakes half as hard in its weakest zone if it is wet. -/
def wetParams : BrakingParams where
  pb1Decel := .ite (Term.zero.lt (.var "wet")) (.scale (1 / 2) (.var "PB1decel")) (.var "PB1decel")

/-- A wet road, and thresholds of which one is negative. -/
def wetRoad : Model :=
  .ofList [("TTC", -2), ("FBtime", 1), ("PB2time", -1), ("PB1time", 3), ("PB1decel", 4), ("wet", 1)]

/-- The vehicle is in the weakest zone alone, and it is wet. -/
theorem build_determines_wet_road :
    ("decel" ∉ (Term.var "TTC").names ∧ (∀ zone, "decel" ∉ (Thresholds.get {} zone).names)) ∧
      ∀ d, Model.eval (wetRoad.insert "decel" d)
          (build .priorityInverted (zonePredicates (.var "TTC") {}) (.var "decel")
            wetParams).toFormula = true ↔ d = 2 := by
  have httc : "decel" ∉ (Term.var "TTC").names := by decide
  have hthresholds : ∀ zone, "decel" ∉ (Thresholds.get {} zone).names := by
    intro zone
    cases zone <;> decide
  refine ⟨⟨httc, hthresholds⟩, ?_⟩
  obtain ⟨command, -, -, hiff⟩ := build_determines .priorityInverted "decel" (.var "TTC") {}
    wetParams httc hthresholds (by decide) wetRoad
  have htwo := (hiff 2).1 (by decide +kernel)
  rwa [← htwo] at hiff

/-! ### Getting closer -/

/-- The formula of the controller over the symbolic constants that it has by default. -/
def controller (layout : TableLayout) : Formula :=
  (layout.build (zonePredicates (Signals.ttc {}) {}) (Signals.decel {}) {}).toFormula

/-- It is the controller of every case, whatever the calibration is. -/
theorem ofCalibration_controller (c : Calibration) (layout : TableLayout) :
    (VerificationCase.ofCalibration c layout).controller = layout.controller := rfl

/-- Under a model none of the decelerations is negative, and more urgent zones brake harder. -/
structure FallingParams (params : BrakingParams) (m : Model) : Prop where
  nonneg : 0 ≤ m.evalTerm params.pb1Decel
  pb1_le_pb2 : m.evalTerm params.pb1Decel ≤ m.evalTerm params.pb2Decel
  pb2_le_fb : m.evalTerm params.pb2Decel ≤ m.evalTerm params.fbDecel

variable {params : BrakingParams} {m m₁ m₂ : Model}

/-- In both layouts the commands fall along the ladder, and none of them is negative. -/
theorem FallingParams.rungs (h : FallingParams params m) (layout : TableLayout) :
    (layout.rungs params).Pairwise (fun r s => m.evalTerm s.2 ≤ m.evalTerm r.2) ∧
      ∀ r ∈ layout.rungs params, 0 ≤ m.evalTerm r.2 := by
  have hpb1 := h.nonneg
  have hpb2 := le_trans hpb1 h.pb1_le_pb2
  have hfb := le_trans hpb2 h.pb2_le_fb
  have hpb1fb := le_trans h.pb1_le_pb2 h.pb2_le_fb
  have hzero : m.evalTerm .zero = 0 := rfl
  cases layout <;>
    simp [TableLayout.rungs, hzero, hpb1, hpb2, hfb, hpb1fb, h.pb1_le_pb2, h.pb2_le_fb]

variable {ttc : Term} {thresholds : Thresholds}

/-- A vehicle that approaches and gets closer leaves no zone. -/
theorem enters_of_closer
    (hthresholds : ∀ zone, m₁.evalTerm (thresholds.get zone) = m₂.evalTerm (thresholds.get zone))
    (hcloser : m₁.evalTerm ttc ≤ m₂.evalTerm ttc) (happroach : m₂.evalTerm ttc < 0) (zone : Zone)
    (h : m₁.eval (zonePredicates ttc thresholds zone) = true) :
    m₂.eval (zonePredicates ttc thresholds zone) = true := by
  obtain ⟨-, hlt⟩ := (VerificationCase.eval_zonePredicate_iff _ _).1 h
  refine (VerificationCase.eval_zonePredicate_iff _ _).2 ⟨happroach, ?_⟩
  calc -m₂.evalTerm ttc ≤ -m₁.evalTerm ttc := neg_le_neg hcloser
    _ < m₁.evalTerm (thresholds.get zone) := hlt
    _ = m₂.evalTerm (thresholds.get zone) := hthresholds zone

/-- Whatever the zones and the commands are, less is not commanded closer by. -/
theorem command_le_of_closer (layout : TableLayout) (hfalling : FallingParams params m₁)
    (hparams : ∀ t ∈ [params.fbDecel, params.pb2Decel, params.pb1Decel, .zero],
      m₁.evalTerm t = m₂.evalTerm t)
    (hthresholds : ∀ zone, m₁.evalTerm (thresholds.get zone) = m₂.evalTerm (thresholds.get zone))
    (hcloser : m₁.evalTerm ttc ≤ m₂.evalTerm ttc) (happroach : m₂.evalTerm ttc < 0) :
    m₁.evalTerm (Zone.command (zonePredicates ttc thresholds) m₁ (layout.rungs params)) ≤
      m₂.evalTerm (Zone.command (zonePredicates ttc thresholds) m₂ (layout.rungs params)) := by
  obtain ⟨hpairwise, hnonneg⟩ := hfalling.rungs layout
  have hsame : ∀ r ∈ layout.rungs params, m₁.evalTerm r.2 = m₂.evalTerm r.2 := fun r hr =>
    hparams r.2 (rungs_subset layout params (List.mem_append_left _ (List.mem_map_of_mem hr)))
  exact Zone.command_le (fun r _ => enters_of_closer hthresholds hcloser happroach r.1) hsame
    hpairwise hnonneg

/-- As a formula, the controller says that the deceleration is the one that its ladder commands. -/
theorem eval_controller_iff (layout : TableLayout) (m : Model) :
    m.eval layout.controller = true ↔ m.value "decel" =
      m.evalTerm (Zone.command (zonePredicates (.var "TTC") {}) m (layout.rungs {})) := by
  unfold controller
  rw [build_eq_ladder]
  exact DecisionTable.eval_ladder_iff _ (.var "decel") m _

/-- Getting closer never brakes less.  Of two situations that differ in nothing but the time to
collision and the deceleration, the vehicle brakes at least as hard in the one where it is closer,
if more urgent zones brake harder; the thresholds may be any numbers.  A vehicle that does not
approach does not brake. -/
theorem controller_brakes_closer (layout : TableLayout) :
    (∀ m₁ m₂ : Model,
      (∀ x ∈ ["FBtime", "PB2time", "PB1time", "FCWtime", "FBdecel", "PB2decel", "PB1decel"],
        m₁.value x = m₂.value x) →
      0 ≤ m₁.value "PB1decel" → m₁.value "PB1decel" ≤ m₁.value "PB2decel" →
      m₁.value "PB2decel" ≤ m₁.value "FBdecel" →
      m₁.eval layout.controller = true → m₂.eval layout.controller = true →
      m₁.value "TTC" ≤ m₂.value "TTC" → m₂.value "TTC" < 0 →
        m₁.value "decel" ≤ m₂.value "decel") ∧
    ∀ m : Model, m.eval layout.controller = true → 0 ≤ m.value "TTC" → m.value "decel" = 0 := by
  constructor
  · intro m₁ m₂ hagree hnonneg hpb1 hpb2 h₁ h₂ hcloser happroach
    rw [(eval_controller_iff layout m₁).1 h₁, (eval_controller_iff layout m₂).1 h₂]
    have hthresholds : ∀ zone, m₁.evalTerm (Thresholds.get {} zone) =
        m₂.evalTerm (Thresholds.get {} zone) := by
      intro zone
      cases zone <;> exact hagree _ (by decide)
    have hparams : ∀ t ∈ [Term.var "FBdecel", .var "PB2decel", .var "PB1decel", .zero],
        m₁.evalTerm t = m₂.evalTerm t := by
      simp only [List.forall_mem_cons]
      exact ⟨hagree _ (by decide), hagree _ (by decide), hagree _ (by decide), rfl, by simp⟩
    exact command_le_of_closer layout ⟨hnonneg, hpb1, hpb2⟩ hparams hthresholds hcloser happroach
  · intro m h happroach
    rw [(eval_controller_iff layout m).1 h]
    -- the vehicle is in no zone
    have hout : ∀ r ∈ layout.rungs {}, ¬ m.eval (zonePredicates (.var "TTC") {} r.1) = true := by
      intro r _ hin
      exact absurd ((VerificationCase.eval_zonePredicate_iff _ _).1 hin).1 (not_lt.2 happroach)
    rw [Zone.command_eq_zero hout]
    rfl

/-- A time to collision and a deceleration, under thresholds that are not nested. -/
def situation (ttc decel : Rat) : Model :=
  .ofList [("TTC", ttc), ("decel", decel), ("FBtime", 2), ("PB2time", -1), ("PB1time", 3),
    ("FBdecel", 3), ("PB2decel", 2), ("PB1decel", 1)]

/-- With the most urgent rules exchanged, the vehicle comes from the weakest zone into that of full
braking, and drives away from the obstacle. -/
theorem controller_brakes_closer_not_nested :
    ((situation (-5 / 2) 1).eval (controller .priorityInverted) = true ∧
        (situation (-1) 3).eval (controller .priorityInverted) = true ∧
        (situation (-5 / 2) 1).value "decel" ≤ (situation (-1) 3).value "decel") ∧
      (situation 1 0).eval (controller .priorityInverted) = true ∧
        (situation 1 0).value "decel" = 0 := by
  have hfar : (situation (-5 / 2) 1).eval (controller .priorityInverted) = true := by decide +kernel
  have hclose : (situation (-1) 3).eval (controller .priorityInverted) = true := by decide +kernel
  have haway : (situation 1 0).eval (controller .priorityInverted) = true := by decide +kernel
  obtain ⟨hmonotone, hzero⟩ := controller_brakes_closer .priorityInverted
  refine ⟨⟨hfar, hclose, ?_⟩, haway, hzero _ haway (by decide +kernel)⟩
  exact hmonotone _ _ (by decide +kernel) (by decide +kernel) (by decide +kernel)
    (by decide +kernel) hfar hclose (by decide +kernel) (by decide +kernel)

end TableLayout

end BrakeCheck
