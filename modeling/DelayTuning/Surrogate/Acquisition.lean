import DelayTuning.Double

/-!
# Acquisition rules

How promising a point is, given what the model predicts there. A higher score means more worth
evaluating.

## Main definitions

- `Acquisition`: lower confidence bound or expected improvement
- `Acquisition.score`: the score of a prediction
- `normalDensity`, `normalDistribution`: the standard normal distribution, with a rational
  approximation of the error function
-/

namespace DelayTuning

/-- The number one with the sign of `x`; a NaN is kept. -/
def signOf (x : Float) : Float :=
  if x == x then (if x.toBits.toNat < Nat.pow 2 63 then 1.0 else -1.0) else x

/-- The error function, by the approximation with five coefficients whose error is below `1.5e-7`. -/
def errorFunction (x : Float) : Float :=
  let size := x.abs
  let t := 1.0 / (1.0 + 0.3275911 * size)
  let poly := t * (0.254829592
    + t * (-0.284496736 + t * (1.421413741 + t * (-1.453152027 + t * 1.061405429))))
  signOf x * (1.0 - poly * Float.exp (-size * size))

def normalDensity (z : Float) : Float :=
  Float.exp (-0.5 * z * z) / Float.sqrt (2.0 * 3.14159265358979323846)

/-- The distribution function of the standard normal distribution. -/
def normalDistribution (z : Float) : Float :=
  0.5 * (1.0 + errorFunction (z / 1.41421356237309504880))

/-- A rule that turns a prediction into a score. -/
inductive Acquisition where
  /-- The lower confidence bound `mean - kappa * deviation` with its sign changed. -/
  | lowerConfidenceBound (kappa : Float)
  /-- The expected improvement on the best value by more than `xi`. -/
  | expectedImprovement (xi : Float)
  deriving DecidableEq, Repr

namespace Acquisition

/-- The rule that is used unless another one is asked for. -/
def standard : Acquisition := .lowerConfidenceBound 2.0

/-- The expected improvement on `best` by more than `xi`, for a normal distribution. -/
def expectedImprovementOn (best xi mean deviation : Float) : Float :=
  let improvement := best - mean - xi
  if deviation ≤ 1e-12 then Scalar.maxNum improvement 0.0
  else
    let z := improvement / deviation
    Scalar.maxNum (improvement * normalDistribution z + deviation * normalDensity z) 0.0

/-- The score of a predicted mean and deviation, where `best` is the lowest value so far. In the lower
    confidence bound a NaN of the deviation decides on the sign, then one of `kappa`, then one of the
    mean; the expected improvement is never a NaN. -/
def score (rule : Acquisition) (mean deviation : Double) (best : Float) : Double :=
  match rule with
  | .lowerConfidenceBound kappa => deviation * .ofFloat kappa - mean
  | .expectedImprovement xi =>
    .ofFloat (expectedImprovementOn best xi mean.toFloat deviation.toFloat)

end Acquisition

end DelayTuning
