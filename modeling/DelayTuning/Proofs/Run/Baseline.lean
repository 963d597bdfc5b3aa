import DelayTuning.Proofs.Binary64.Arithmetic
import DelayTuning.Run.Basic

/-!
# The baseline of a relative objective

The first outcome whose delay and area are not zero or negative becomes the baseline and stays it. It is the
first outcome with a usable score whenever it is a pair of finite numbers. A NaN or an infinity passes the
comparison with zero as well; such an outcome becomes the baseline although its own score, a quotient by
itself, is not a number.

## Main definitions

- `RelativeObjective.after`: the objective after outcomes have been scored
- `RelativeObjective.firstUsable?`: the first outcome whose score a run can use
- `MappingEvaluator.after`, `flowOutcomes`: an evaluator after calls, and what its flow has answered

## Main statements

- `RelativeObjective.baseline_after`: what becomes the baseline
- `MappingEvaluator.objective_after`: an evaluator scores what its flow answers
-/

namespace DelayTuning

namespace RelativeObjective

def after (objective : RelativeObjective) : List MappingOutcome → RelativeObjective
  | [] => objective
  | outcome :: rest => after (objective.score outcome).2 rest

/-- The first outcome whose score is a finite number. -/
def firstUsable? (objective : RelativeObjective) : List MappingOutcome → Option MappingOutcome
  | [] => none
  | outcome :: rest =>
    if (usableValue (objective.score outcome).1).isOk then some outcome
    else firstUsable? (objective.score outcome).2 rest

/-- Neither the delay nor the area is zero or negative. -/
def IsAccepted (outcome : MappingOutcome) : Prop :=
  ¬ outcome.delay ≤ 0.0 ∧ ¬ outcome.area ≤ 0.0

instance instDecidableIsAccepted (outcome : MappingOutcome) : Decidable (IsAccepted outcome) :=
  inferInstanceAs (Decidable (_ ∧ _))

theorem score_of_baseline (base outcome : MappingOutcome) :
    score ⟨some base⟩ outcome = (.ok (ratio outcome base), ⟨some base⟩) := rfl

theorem score_start (outcome : MappingOutcome) :
    start.score outcome = if IsAccepted outcome then (.ok (ratio outcome outcome), ⟨some outcome⟩)
      else (.error (unusableBaseline outcome), start) := by
  simp only [score, start, Bool.or_eq_true, decide_eq_true_iff]
  by_cases haccepted : IsAccepted outcome
  · rw [if_pos haccepted, if_neg (not_or.mpr haccepted)]
  · rw [if_neg haccepted, if_pos (by rwa [IsAccepted, ← not_or, not_not] at haccepted)]

/-- A baseline stays whatever is scored against it. -/
theorem after_of_baseline (base : MappingOutcome) (outcomes : List MappingOutcome) :
    after ⟨some base⟩ outcomes = ⟨some base⟩ := by
  induction outcomes with
  | nil => rfl
  | cons outcome rest ih => rw [after, score_of_baseline, ih]

theorem after_append (objective : RelativeObjective) (outcomes more : List MappingOutcome) :
    objective.after (outcomes ++ more) = (objective.after outcomes).after more := by
  induction outcomes generalizing objective with
  | nil => rfl
  | cons outcome rest ih => exact ih _

theorem after_start (outcomes : List MappingOutcome) :
    (start.after outcomes).baseline = outcomes.find? (fun outcome => IsAccepted outcome) := by
  induction outcomes with
  | nil => rfl
  | cons outcome rest ih =>
    rw [after, score_start, List.find?_cons]
    by_cases haccepted : IsAccepted outcome
    · rw [if_pos haccepted, after_of_baseline, decide_eq_true haccepted]
    · rw [if_neg haccepted, ih, decide_eq_false haccepted]

/-! ### Scores against the outcome itself -/

theorem zero_lt_of_not_le {x : Float} (hx : x.isFinite = true) (h : ¬ x ≤ 0.0) : 0.0 < x := by
  have hzero : (0.0 : Float).isFinite = true := by decide
  rw [le_iff_exactValue_le hx hzero, not_le] at h
  rwa [lt_iff_exactValue_lt hzero hx]

theorem exactValue_div_self {x : Float} (hx : x.isFinite = true) (h : ¬ x ≤ 0.0) :
    (x / x).isFinite = true ∧ exactValue (x / x) = 1 := by
  have hpos := zero_lt_of_not_le hx h
  rw [lt_iff_exactValue_lt (by decide) hx, exactValue_zero] at hpos
  have hround := roundsTo_div hx hx hpos.ne'
  rw [div_self hpos.ne', ← exactValue_one] at hround
  rw [← exactValue_one]
  exact hround.exactValue_eq (by decide)

theorem isFinite_ratio_self_iff {outcome : MappingOutcome} (h : IsAccepted outcome) :
    (ratio outcome outcome).isFinite = true ↔
      outcome.delay.isFinite = true ∧ outcome.area.isFinite = true := by
  constructor
  · intro hfinite
    by_contra hboth
    rw [not_and_or, Bool.not_eq_true, Bool.not_eq_true] at hboth
    have hsum : (ratio outcome outcome).isFinite = false := by
      obtain hdelay | harea := hboth
      · exact not_isFinite_add_left (not_isFinite_div_self hdelay)
      · exact not_isFinite_add_right (not_isFinite_div_self harea)
    rw [hsum] at hfinite
    exact Bool.false_ne_true hfinite
  · rintro ⟨hdelay, harea⟩
    obtain ⟨hdelay', hone⟩ := exactValue_div_self hdelay h.1
    obtain ⟨harea', hone'⟩ := exactValue_div_self harea h.2
    obtain ⟨two, htwo, hvalue⟩ :=
      exists_exactValue_eq (m := 2) (e := 0) (by decide) (by decide) (by decide)
    have hround := roundsTo_add hdelay' harea'
    rw [hone, hone', one_add_one_eq_two] at hround
    rw [zpow_zero, mul_one, Nat.cast_ofNat] at hvalue
    exact hround.isFinite htwo htwo hvalue.le hvalue.ge

theorem isOk_usableValue_ok (value : Float) :
    (usableValue (.ok value)).isOk = value.isFinite := by
  rw [usableValue]
  cases hfinite : value.isFinite <;> rfl

/-- An outcome whose ratio to itself is not finite is never usable once it is the baseline. -/
theorem isFinite_of_firstUsable? {base : MappingOutcome} {outcomes : List MappingOutcome}
    (h : firstUsable? ⟨some base⟩ outcomes = some base) : (ratio base base).isFinite = true := by
  induction outcomes with
  | nil => cases h
  | cons outcome rest ih =>
    rw [firstUsable?, score_of_baseline, isOk_usableValue_ok] at h
    split at h
    · next husable =>
      obtain rfl : outcome = base := by simpa using h
      exact husable
    · exact ih h

/-- The baseline is the first outcome with a usable score iff it consists of finite numbers. -/
theorem baseline_eq_firstUsable?_iff (outcomes : List MappingOutcome) :
    (start.after outcomes).baseline = start.firstUsable? outcomes ↔
      ∀ base, (start.after outcomes).baseline = some base →
        base.delay.isFinite = true ∧ base.area.isFinite = true := by
  induction outcomes with
  | nil => simp [after, firstUsable?, start]
  | cons outcome rest ih =>
    rw [after, firstUsable?, score_start]
    -- an accepted outcome becomes the baseline: it is usable itself, or no later one is
    by_cases haccepted : IsAccepted outcome
    · have hiff := isFinite_ratio_self_iff haccepted
      simp only [if_pos haccepted, after_of_baseline, isOk_usableValue_ok, Option.some_inj,
        forall_eq']
      rw [← hiff]
      by_cases hfinite : (ratio outcome outcome).isFinite = true
      · simp [hfinite]
      · rw [if_neg hfinite]
        refine ⟨?_, fun h => absurd h hfinite⟩
        intro hfirst
        exact isFinite_of_firstUsable? hfirst.symm
    · simp only [if_neg haccepted]
      exact ih

theorem isAccepted_of_baseline {outcomes : List MappingOutcome} {base : MappingOutcome}
    (h : (start.after outcomes).baseline = some base) : IsAccepted base := by
  rw [after_start] at h
  simpa using List.find?_some h

end RelativeObjective

/-! ### Evaluators of mapping flows -/

section Flows

variable {φ : Type} [MappingFlow φ]

/-- What a flow answers to candidates one after the other, without its failures. -/
def flowOutcomes (flow : φ) : List Candidate → List MappingOutcome
  | [] => []
  | candidate :: rest =>
    match MappingFlow.map flow candidate with
    | (.ok outcome, flow) => outcome :: flowOutcomes flow rest
    | (.error _, flow) => flowOutcomes flow rest

namespace MappingEvaluator

def after (e : MappingEvaluator φ) : List Candidate → MappingEvaluator φ
  | [] => e
  | candidate :: rest => after (e.evaluate candidate).2 rest

theorem objective_after (e : MappingEvaluator φ) (candidates : List Candidate) :
    (e.after candidates).objective = e.objective.after (flowOutcomes e.flow candidates) := by
  induction candidates generalizing e with
  | nil => rfl
  | cons candidate rest ih =>
    rw [after, ih, evaluate, flowOutcomes]
    cases MappingFlow.map e.flow candidate with
    | mk answer flow =>
      cases answer with
      | error failure => rfl
      | ok outcome => rfl

end MappingEvaluator

end Flows

namespace RelativeObjective

/-- Whatever is scored, by itself or by an evaluator whose flow may fail in between: a baseline is never
replaced, and it is an outcome that is not refused. It is the first outcome with a usable score iff its delay
and its area are finite, and then they are positive. -/
theorem baseline_after (outcomes : List MappingOutcome) :
    (∀ more base, (start.after outcomes).baseline = some base →
      (start.after (outcomes ++ more)).baseline = some base) ∧
    (∀ base, (start.after outcomes).baseline = some base →
      base ∈ outcomes ∧ ¬ base.delay ≤ 0.0 ∧ ¬ base.area ≤ 0.0) ∧
    ((start.after outcomes).baseline = start.firstUsable? outcomes ↔
      ∀ base, (start.after outcomes).baseline = some base →
        base.delay.isFinite = true ∧ base.area.isFinite = true) ∧
    (∀ base, (start.after outcomes).baseline = start.firstUsable? outcomes →
      (start.after outcomes).baseline = some base → 0.0 < base.delay ∧ 0.0 < base.area) ∧
    ∀ {φ : Type} [MappingFlow φ] (flow : φ) (candidates : List Candidate),
      ((MappingEvaluator.start flow).after candidates).objective =
        start.after (flowOutcomes flow candidates) := by
  refine ⟨?_, ?_, baseline_eq_firstUsable?_iff outcomes, ?_, ?_⟩
  · intro more base hbase
    have hobjective : start.after outcomes = ⟨some base⟩ := congrArg RelativeObjective.mk hbase
    rw [after_append, hobjective, after_of_baseline]
  · intro base hbase
    refine ⟨?_, isAccepted_of_baseline hbase⟩
    rw [after_start] at hbase
    exact List.mem_of_find?_eq_some hbase
  · intro base hfirst hbase
    obtain ⟨hdelay, harea⟩ := (baseline_eq_firstUsable?_iff outcomes).mp hfirst base hbase
    have haccepted := isAccepted_of_baseline hbase
    exact ⟨zero_lt_of_not_le hdelay haccepted.1, zero_lt_of_not_le harea haccepted.2⟩
  · intro φ _ flow candidates
    exact MappingEvaluator.objective_after _ candidates

/-- A NaN becomes the baseline, and the outcome after it has no usable score either. -/
theorem nan_baseline :
    let outcomes : List MappingOutcome := [⟨0.0 / 0.0, 1.0, 0⟩, ⟨5.0, 5.0, 0⟩]
    (start.after outcomes).baseline = some ⟨0.0 / 0.0, 1.0, 0⟩ ∧ start.firstUsable? outcomes = none := by
  decide +kernel

end RelativeObjective

end DelayTuning
