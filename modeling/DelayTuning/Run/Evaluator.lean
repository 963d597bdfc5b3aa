import DelayTuning.Ledger

/-!
# Evaluators

What gives a candidate its value: a synthesis flow, or a synthetic function. An evaluator is a state; a
call may change it and may fail.

## Main definitions

- `Evaluator`: something that can evaluate candidates
- `QuadraticBowl`: the squared distance from a centre with equal coordinates
- `RelativeObjective`: delay and area relative to those of the first outcome
- `MappingEvaluator`: a mapping flow scored by a relative objective
-/

namespace DelayTuning

/-- Something with states `ε` that evaluates candidates; lower values are better. -/
class Evaluator (ε : Type) where
  /-- The value of a candidate or why there is none, and the state after the call. -/
  evaluate : ε → Candidate → Except EvaluationFailure Float × ε

/-! ### The bowl -/

/-- The synthetic objective with its minimum at the point whose coordinates are all `centre`. -/
structure QuadraticBowl where
  centre : Float
  deriving DecidableEq, Repr

namespace QuadraticBowl

/-- The bowl that is used unless another one is asked for. -/
def standard : QuadraticBowl := ⟨0.5⟩

/-- The sum of the squared distances of the coordinates from the centre. -/
def value (bowl : QuadraticBowl) (candidate : Candidate) : Float :=
  Scalar.sum (candidate.toFloats.map fun x => (x - bowl.centre) * (x - bowl.centre))

end QuadraticBowl

instance instEvaluatorQuadraticBowl : Evaluator QuadraticBowl where
  evaluate bowl candidate := (.ok (bowl.value candidate), bowl)

/-! ### Mapping flows -/

/-- What a mapping of the benchmark comes to. -/
structure MappingOutcome where
  delay : Float
  area : Float
  level : Nat
  deriving DecidableEq, Repr

/-- An objective that compares every outcome with the first one. -/
structure RelativeObjective where
  baseline : Option MappingOutcome
  deriving DecidableEq, Repr

namespace RelativeObjective

/-- The objective before the first outcome. -/
def start : RelativeObjective := ⟨none⟩

/-- The failure of an outcome that cannot be compared with. -/
def unusableBaseline (outcome : MappingOutcome) : EvaluationFailure where
  kind := .malformedOutput
  text := "baseline needs positive delay and area, got delay " ++ shortestText outcome.delay
    ++ " area " ++ shortestText outcome.area

/-- The delay and the area of an outcome as multiples of those of the baseline, added up. -/
def ratio (outcome base : MappingOutcome) : Float :=
  outcome.delay / base.delay + outcome.area / base.area

/-- The score of an outcome. The first outcome becomes the baseline, unless its delay or its area is zero
    or negative. -/
def score (objective : RelativeObjective) (outcome : MappingOutcome) :
    Except EvaluationFailure Float × RelativeObjective :=
  match objective.baseline with
  | some base => (.ok (ratio outcome base), objective)
  | none =>
    if outcome.delay ≤ 0.0 || outcome.area ≤ 0.0 then
      (.error (unusableBaseline outcome), objective)
    else (.ok (ratio outcome outcome), ⟨some outcome⟩)

end RelativeObjective

/-- A mapping flow with states `φ`. -/
class MappingFlow (φ : Type) where
  /-- The outcome for a candidate or why there is none, and the state after the call. -/
  map : φ → Candidate → Except EvaluationFailure MappingOutcome × φ

/-- A mapping flow as an evaluator. -/
structure MappingEvaluator (φ : Type) where
  flow : φ
  objective : RelativeObjective
  deriving DecidableEq, Repr

namespace MappingEvaluator

variable {φ : Type}

/-- The evaluator before the first call. -/
def start (flow : φ) : MappingEvaluator φ := ⟨flow, .start⟩

/-- The score of the flow's outcome. A failure of the flow leaves the objective alone. -/
def evaluate [MappingFlow φ] (e : MappingEvaluator φ) (candidate : Candidate) :
    Except EvaluationFailure Float × MappingEvaluator φ :=
  match MappingFlow.map e.flow candidate with
  | (.error failure, flow) => (.error failure, { e with flow := flow })
  | (.ok outcome, flow) =>
    let (result, objective) := e.objective.score outcome
    (result, ⟨flow, objective⟩)

end MappingEvaluator

instance instEvaluatorMappingEvaluator {φ : Type} [MappingFlow φ] :
    Evaluator (MappingEvaluator φ) where
  evaluate := MappingEvaluator.evaluate

end DelayTuning
