import DelayTuning.Surrogate.Acquisition
import DelayTuning.Surrogate.Basic
import DelayTuning.Surrogate.Regression

/-!
# The Gaussian process as a surrogate

A regression on the unit cube together with the space it was fit for and an acquisition rule.

## Main definitions

- `GaussianProcessConfig`: kernel parameters and acquisition rule
- `GaussianProcess`: a process that may have been fit
- `GaussianProcess.fit`, `GaussianProcess.predict`, `GaussianProcess.acquire`
-/

namespace DelayTuning

/-- The parameters of a Gaussian process surrogate. -/
structure GaussianProcessConfig extends KernelConfig Float where
  acquisition : Acquisition
  deriving DecidableEq, Repr

/-- The parameters that are used unless others are asked for. -/
def GaussianProcessConfig.standard : GaussianProcessConfig where
  lengthScale := none
  signalVariance := 1.0
  noise := 1e-6
  acquisition := .standard

/-- The parameters of the kernel, as the doubles that the regression computes with. -/
def GaussianProcessConfig.kernel (config : GaussianProcessConfig) : KernelConfig Double :=
  config.toKernelConfig.map .ofFloat

/-- What a process has learned. -/
structure FittedModel where
  space : Space Double
  regression : Regression Double
  best : Float
  deriving DecidableEq

/-- A Gaussian process, fit or not. -/
structure GaussianProcess where
  config : GaussianProcessConfig
  fitted : Option FittedModel
  deriving DecidableEq

namespace GaussianProcess

/-- A process that has not been fit. -/
def ofConfig (config : GaussianProcessConfig) : GaussianProcess := ⟨config, none⟩

def standard : GaussianProcess := ofConfig .standard

def name : String := "gp"

/-- The lowest of a list of values, infinite if there is none. -/
def lowest (values : List Float) : Float :=
  values.foldl Scalar.minNum infinity

/-- Fit the process on all observations. If that is not possible, what it has learned before stays. -/
def fit (gp : GaussianProcess) (space : Space Double) (observations : List Observation) :
    Except TuneError Unit × GaussianProcess :=
  if observations.isEmpty then (.error .noObservations, gp)
  else
    let inputs := observations.map fun o => space.toUnit o.candidate
    let values := observations.map Observation.value
    match Regression.fit? gp.config.kernel space.dimension inputs (values.map .ofFloat) with
    | some regression => (.ok (), { gp with fitted := some ⟨space, regression, lowest values⟩ })
    | none => (.error (.surrogate (.notPositiveDefinite observations.length)), gp)

/-- The mean and the standard deviation of a fitted process at a candidate. -/
def predictFitted (gp : GaussianProcess) (model : FittedModel) (candidate : Candidate) :
    Except TuneError (Double × Double) :=
  if candidate.length = model.space.dimension then
    .ok (model.regression.predict gp.config.kernel.signalVariance (model.space.toUnit candidate))
  else .error (.shapeMismatch model.space.dimension candidate.length)

/-- The mean and the standard deviation of the process at a candidate. -/
def predict (gp : GaussianProcess) (candidate : Candidate) : Except TuneError (Double × Double) :=
  match gp.fitted with
  | some model => gp.predictFitted model candidate
  | none => .error (.surrogate .notFitted)

/-- The scores of a list of candidates by a fitted process; the first candidate of a wrong length is
    refused. -/
def acquireFitted (gp : GaussianProcess) (model : FittedModel) (candidates : List Candidate) :
    Except TuneError (List Double) :=
  candidates.mapM fun candidate =>
    match gp.predictFitted model candidate with
    | .ok (mean, deviation) => .ok (gp.config.acquisition.score mean deviation model.best)
    | .error e => .error e

def acquire (gp : GaussianProcess) (candidates : List Candidate) : Except TuneError (List Double) :=
  match gp.fitted with
  | some model => gp.acquireFitted model candidates
  | none => .error (.surrogate .notFitted)

end GaussianProcess

instance instSurrogateGaussianProcess : Surrogate GaussianProcess where
  name _ := GaussianProcess.name
  fit := GaussianProcess.fit
  acquire gp candidates := (gp.acquire candidates, gp)

end DelayTuning
