import DelayTuning.Clustering.KMeans
import DelayTuning.Json.Decode
import DelayTuning.Optimizer.Config
import DelayTuning.Run.Config
import DelayTuning.Surrogate.GaussianProcess

/-!
# Parameters as JSON

How the parameters of models, optimizers, runs and clusterings are written as JSON values and read back.

## Main definitions

- `Acquisition.toJson`, `GaussianProcessConfig.toJson`: a rule, the parameters of a model
- `OptimizerConfig.toJson`: the parameters of an optimizer
- `FailurePolicy.toJson`, `RunConfig.toJson`: a policy, the parameters of a run
- `ClusteringConfig.toJson`: the parameters of a clustering
- a function `ofJson?` for each of them
-/

namespace DelayTuning

namespace Acquisition

def toJson : Acquisition → Json
  | .lowerConfidenceBound kappa =>
    .object [("LowerConfidenceBound", .object [("kappa", .float kappa)])]
  | .expectedImprovement xi => .object [("ExpectedImprovement", .object [("xi", .float xi)])]

/-- The only number among the data of an alternative. -/
def number? (name : String) (content : Json) : Option Float :=
  match content.objectRecord? [Json.required name] with
  | some [x] => x.asFloat?
  | _ => none

def ofJson? (v : Json) : Option Acquisition :=
  match v.tagged? with
  | some ("LowerConfidenceBound", content) =>
    (number? "kappa" content).map .lowerConfidenceBound
  | some ("ExpectedImprovement", content) => (number? "xi" content).map .expectedImprovement
  | _ => none

end Acquisition

namespace GaussianProcessConfig

/-- The parameters of a Gaussian process as a JSON value. -/
def toJson (c : GaussianProcessConfig) : Json :=
  .object [("length_scale", .ofOption (c.lengthScale.map .float)),
    ("signal_variance", .float c.signalVariance), ("noise", .float c.noise),
    ("acquisition", c.acquisition.toJson)]

/-- The parameters of a Gaussian process of a JSON value. -/
def ofJson? (v : Json) : Option GaussianProcessConfig :=
  match v.record? [Json.optional "length_scale", Json.required "signal_variance",
    Json.required "noise", Json.required "acquisition"] with
  | some [lengthScale, signalVariance, noise, acquisition] => do
    let lengthScale ← lengthScale.asOptionalFloat?
    let signalVariance ← signalVariance.asFloat?
    let noise ← noise.asFloat?
    let acquisition ← Acquisition.ofJson? acquisition
    some { lengthScale, signalVariance, noise, acquisition }
  | _ => none

end GaussianProcessConfig

namespace InitialDesign

def name : InitialDesign → String
  | .latinHypercube => "LatinHypercube"
  | .uniform => "Uniform"

def ofName? : String → Option InitialDesign
  | "LatinHypercube" => some .latinHypercube
  | "Uniform" => some .uniform
  | _ => none

def ofJson? (v : Json) : Option InitialDesign :=
  v.plain?.bind ofName?

end InitialDesign

namespace OptimizerConfig

def toJson (c : OptimizerConfig) : Json :=
  .object [("seed", .natural c.seed.toNat), ("initial_design", .text c.initialDesign.name),
    ("candidate_pool", .natural c.poolSize), ("local_fraction", .float c.localFraction),
    ("perturbation_scale", .float c.perturbationScale), ("elite_count", .natural c.eliteCount)]

def ofJson? (v : Json) : Option OptimizerConfig :=
  match v.record? [Json.required "seed", Json.required "initial_design",
    Json.required "candidate_pool", Json.required "local_fraction",
    Json.required "perturbation_scale", Json.required "elite_count"] with
  | some [seed, initialDesign, poolSize, localFraction, perturbationScale, eliteCount] => do
    let seed ← seed.asCount?
    let initialDesign ← InitialDesign.ofJson? initialDesign
    let poolSize ← poolSize.asCount?
    let localFraction ← localFraction.asFloat?
    let perturbationScale ← perturbationScale.asFloat?
    let eliteCount ← eliteCount.asCount?
    some { seed := .ofNat seed, initialDesign, poolSize, localFraction, perturbationScale,
           eliteCount }
  | _ => none

end OptimizerConfig

namespace FailurePolicy

def toJson : FailurePolicy → Json
  | .skip => .text "Skip"
  | .retry attempts => .object [("Retry", .object [("attempts", .natural attempts)])]
  | .abort => .text "Abort"

/-- The policy without data that has a name. -/
def ofName? : String → Option FailurePolicy
  | "Skip" => some .skip
  | "Abort" => some .abort
  | _ => none

def ofTagged? : String × Json → Option FailurePolicy
  | ("Retry", content) =>
    match content.objectRecord? [Json.required "attempts"] with
    | some [attempts] => attempts.asSmallCount?.map .retry
    | _ => none
  | _ => none

def ofJson? (v : Json) : Option FailurePolicy :=
  (v.plain?.bind ofName?).or (v.tagged?.bind ofTagged?)

end FailurePolicy

namespace RunConfig

def toJson (c : RunConfig) : Json :=
  .object [("name", .text c.name), ("iterations", .natural c.iterations),
    ("batch_size", .natural c.batchSize), ("seeds", .array (c.seeds.map fun seed => .floats seed.toFloats)),
    ("failure_policy", c.policy.toJson)]

def ofJson? (v : Json) : Option RunConfig :=
  match v.record? [Json.required "name", Json.required "iterations", Json.required "batch_size",
    Json.required "seeds", Json.required "failure_policy"] with
  | some [name, iterations, batchSize, seeds, policy] => do
    let name ← name.asText?
    let iterations ← iterations.asCount?
    let batchSize ← batchSize.asCount?
    let seeds ← seeds.asList? Json.asFloats?
    let policy ← FailurePolicy.ofJson? policy
    some { name, iterations, batchSize, seeds := seeds.map Candidate.ofFloats, policy }
  | _ => none

end RunConfig

namespace ClusteringConfig

def toJson (c : ClusteringConfig) : Json :=
  .object [("seed", .natural c.seed.toNat), ("max_iterations", .natural c.maxIterations),
    ("report_precision", .natural c.precision.toNat)]

def ofJson? (v : Json) : Option ClusteringConfig :=
  match v.record? [Json.required "seed", Json.required "max_iterations",
    Json.required "report_precision"] with
  | some [seed, maxIterations, precision] => do
    let seed ← seed.asCount?
    let maxIterations ← maxIterations.asCount?
    let precision ← precision.asSmallCount?
    some { seed := .ofNat seed, maxIterations, precision := .ofNat precision }
  | _ => none

end ClusteringConfig

end DelayTuning
