import DelayTuning.Decimal.Shortest
import DelayTuning.Double
import DelayTuning.Space.Basic

/-!
# Errors of the tuning engine

Every refusal of the engine is a cause with the data that explain it; the wording of each cause is in
one place.

## Main definitions

- `TuneError`: why the engine refuses, with `TuneError.message`
- `RequestFault`, `SurrogateFault`: the causes of an invalid request and of a failing model
- `Halt`: why a computation that draws random numbers stops without an answer
- `EvaluationFailure`: why an evaluator has no value for a candidate
-/

namespace DelayTuning

def SpaceFault.message : SpaceFault Double → String
  | .noParameters => "a parameter space needs at least one dimension"
  | .nonFiniteBounds p =>
    "parameter '" ++ p.name ++ "' has non-finite bounds [" ++ shortestText p.lower.toFloat ++ ", "
      ++ shortestText p.upper.toFloat ++ "]"
  | .invertedBounds p =>
    "parameter '" ++ p.name ++ "' has lower bound " ++ shortestText p.lower.toFloat
      ++ " above upper bound " ++ shortestText p.upper.toFloat
  | .duplicateName name => "duplicate parameter name '" ++ name ++ "'"
  | .described text => text

/-- What is wrong with a request to the engine. -/
inductive RequestFault where
  /-- A batch of no candidates. -/
  | emptyBatch
  | oversizedBatch (size limit : Nat)
  /-- A clustering into no clusters. -/
  | noClusters
  | described (text : String)
  deriving DecidableEq, Repr

def RequestFault.message : RequestFault → String
  | .emptyBatch => "batch size must be at least 1"
  | .oversizedBatch size limit => s!"batch size {size} exceeds the limit of {limit}"
  | .noClusters => "number of clusters must be at least 1"
  | .described text => text

/-- Why a surrogate model has no answer. -/
inductive SurrogateFault where
  | notFitted
  /-- The kernel matrix of so many points has no factor, whatever jitter was added. -/
  | notPositiveDefinite (points : Nat)
  /-- The number of scores is not the number of candidates. -/
  | scoreCount (model : String) (scores candidates : Nat)
  | described (text : String)
  deriving DecidableEq, Repr

def SurrogateFault.message : SurrogateFault → String
  | .notFitted => "gaussian process has not been fit"
  | .notPositiveDefinite points =>
    s!"kernel matrix of {points} points is not positive definite"
  | .scoreCount model scores candidates =>
    s!"{model} returned {scores} scores for {candidates} candidates"
  | .described text => text

/-- Why the engine refuses. -/
inductive TuneError where
  /-- A list of parameters makes no space. -/
  | invalidSpace (fault : SpaceFault Double)
  /-- Two lengths that have to agree differ. -/
  | shapeMismatch (expected actual : Nat)
  | noObservations
  | insufficientData (points clusters : Nat)
  /-- The request makes no sense. -/
  | invalidRequest (fault : RequestFault)
  | nonFiniteValue (index : Nat) (value : Float)
  /-- The surrogate model has no answer. -/
  | surrogate (fault : SurrogateFault)
  deriving DecidableEq, Repr

def TuneError.message : TuneError → String
  | .invalidSpace fault => "Invalid parameter space: " ++ fault.message
  | .shapeMismatch expected actual => s!"Shape mismatch: expected {expected}, got {actual}"
  | .noObservations => "No observations recorded"
  | .insufficientData points clusters =>
    s!"Insufficient data: {points} points for {clusters} clusters"
  | .invalidRequest fault => "Invalid request: " ++ fault.message
  | .nonFiniteValue index value =>
    "Non-finite objective value " ++ shortestText value ++ s!" at position {index}"
  | .surrogate fault => "Surrogate model error: " ++ fault.message

/-- Why a computation that draws random points stops without an answer. -/
inductive Halt (ε : Type) where
  | refused (cause : ε)
  | unboundedDraw
  deriving DecidableEq, Repr

/-- The broad kinds of evaluation failure. -/
inductive FailureKind where
  /-- The external tool ended abnormally. -/
  | toolCrash
  /-- The tool ran, but its output gives no value. -/
  | malformedOutput
  | other
  deriving DecidableEq, Repr

def FailureKind.name : FailureKind → String
  | .toolCrash => "ToolCrash"
  | .malformedOutput => "MalformedOutput"
  | .other => "Other"

/-- Why an evaluator has no value for a candidate. -/
structure EvaluationFailure where
  kind : FailureKind
  text : String
  deriving DecidableEq, Repr

def EvaluationFailure.message (f : EvaluationFailure) : String :=
  "Evaluation failed (" ++ f.kind.name ++ "): " ++ f.text

end DelayTuning
