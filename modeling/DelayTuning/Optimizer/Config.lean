import DelayTuning.Scalar

/-!
# Parameters of the optimizer

## Main definitions

- `InitialDesign`: how the first batch is drawn
- `OptimizerConfig`: seed, design, size of the pool and the local search
-/

namespace DelayTuning

def maxBatchSize : Nat := 4096

/-- How the first batch is drawn, before anything has been observed. -/
inductive InitialDesign where
  | latinHypercube
  | uniform
  deriving DecidableEq, Repr

/-- The parameters of an optimizer. -/
structure OptimizerConfig where
  /-- The seed of all random draws; equal seeds and observations give equal suggestions. -/
  seed : UInt64
  initialDesign : InitialDesign
  poolSize : Nat
  /-- The share of the pool that lies near the best observations. -/
  localFraction : Float
  /-- How far a perturbation reaches, as a fraction of the width of each parameter. -/
  perturbationScale : Float
  eliteCount : Nat
  deriving DecidableEq, Repr

namespace OptimizerConfig

/-- The parameters that are used unless others are asked for. -/
def standard : OptimizerConfig where
  seed := 42
  initialDesign := .latinHypercube
  poolSize := 512
  localFraction := 0.5
  perturbationScale := 0.1
  eliteCount := 3

/-- The parameters with another local search; the share is kept between zero and one. -/
def withLocalSearch (config : OptimizerConfig) (fraction scale : Float) : OptimizerConfig :=
  { config with localFraction := Scalar.clamp 0.0 1.0 fraction, perturbationScale := scale }

end OptimizerConfig

end DelayTuning
