import DelayTuning.Optimizer.Batch
import DelayTuning.Optimizer.Pool
import DelayTuning.Surrogate.Basic

/-!
# The optimizer

The state of a search: the space, the observations, the model that is fit on them, and the random
generator. The search goes in rounds of asking (`suggest`) and telling (`observe`). Observations are
learned lazily: telling marks the model as stale, and the next question fits it once on the whole
ledger.

## Main definitions

- `Optimizer`: the state of a search
- `Optimizer.suggest`: the next candidates to evaluate
- `Optimizer.observe`: the values of evaluated candidates

## Design notes

Each operation answers together with the state it leaves behind, also when it stops short. A draw that
breaks off leaves the generator where it broke off, and a fit that was done stays done.
-/

namespace DelayTuning

/-- The state of a search with a model of type `σ`. -/
structure Optimizer (σ : Type) where
  space : Space Double
  config : OptimizerConfig
  ledger : Ledger
  surrogate : σ
  generator : Generator
  /-- Whether something has been observed since the model was fit. -/
  stale : Bool
  fitCount : Nat
  deriving DecidableEq

namespace Optimizer

variable {σ : Type}

def start (space : Space Double) (surrogate : σ) (config : OptimizerConfig) : Optimizer σ where
  space := space
  config := config
  ledger := .empty
  surrogate := surrogate
  generator := .ofSeed config.seed
  stale := false
  fitCount := 0

def count (o : Optimizer σ) : Nat :=
  o.ledger.count

def best (o : Optimizer σ) : Except TuneError Observation :=
  o.ledger.best

/-- The first batch, drawn by the initial design. -/
def initialBatch (o : Optimizer σ) (size : Nat) :
    Except (Halt TuneError) (List Candidate) × Optimizer σ :=
  match o.config.initialDesign with
  | .latinHypercube =>
    let (points, g) := o.space.latinHypercube size o.generator
    (.ok points, { o with generator := g })
  | .uniform =>
    match drawUniform o.space size o.generator with
    | (some points, g) => (.ok points, { o with generator := g })
    | (none, g) => (.error .unboundedDraw, { o with generator := g })

variable [Surrogate σ]

/-- The optimizer with a model that knows all observations: a stale model is fit again. -/
def refresh (o : Optimizer σ) : Except TuneError Unit × Optimizer σ :=
  if o.stale then
    match Surrogate.fit o.surrogate o.space o.ledger.entries with
    | (.ok (), s) =>
      (.ok (), { o with surrogate := s, stale := false, fitCount := o.fitCount + 1 })
    | (.error e, s) => (.error e, { o with surrogate := s })
  else (.ok (), o)

/-- The batch chosen from a pool by the scores of the model. -/
def chooseFrom (o : Optimizer σ) (pool : List Candidate) (size : Nat) :
    Except (Halt TuneError) (List Candidate) × Optimizer σ :=
  match Surrogate.acquire o.surrogate pool with
  | (.ok scores, s) =>
    if scores.length = pool.length then
      (.ok (chooseBatch o.ledger pool scores size), { o with surrogate := s })
    else
      (.error (.refused (.surrogate
        (.scoreCount (Surrogate.name s) scores.length pool.length))), { o with surrogate := s })
  | (.error e, s) => (.error (.refused e), { o with surrogate := s })

/-- The batch chosen from a new pool by the scores of the model. -/
def propose (o : Optimizer σ) (size : Nat) :
    Except (Halt TuneError) (List Candidate) × Optimizer σ :=
  match drawPool o.space o.config o.ledger size o.generator with
  | (some pool, g) => { o with generator := g }.chooseFrom pool size
  | (none, g) => (.error .unboundedDraw, { o with generator := g })

/-- The next `size` candidates to evaluate. -/
def suggest (o : Optimizer σ) (size : Nat) :
    Except (Halt TuneError) (List Candidate) × Optimizer σ :=
  if size = 0 then (.error (.refused (.invalidRequest .emptyBatch)), o)
  else if maxBatchSize < size then
    (.error (.refused (.invalidRequest (.oversizedBatch size maxBatchSize))), o)
  else if o.ledger.isEmpty then o.initialBatch size
  else
    match o.refresh with
    | (.ok (), o) => o.propose size
    | (.error e, o) => (.error (.refused e), o)

omit [Surrogate σ] in
/-- Record candidates with their values, one after the other. -/
def record (o : Optimizer σ) : List (Candidate × Float) → Except TuneError Unit × Optimizer σ
  | [] => (.ok (), o)
  | (candidate, value) :: rest =>
    match o.ledger.append ⟨candidate, value⟩ with
    | .ok ledger => record { o with ledger := ledger, stale := true } rest
    | .error e => (.error e, o)

omit [Surrogate σ] in
/-- What is wrong with a batch of candidates and values: their numbers differ, a candidate has the wrong
    length, or a value is not finite. -/
def batchFault? (o : Optimizer σ) (candidates : List Candidate) (values : List Float) :
    Option TuneError :=
  if candidates.length ≠ values.length then
    some (.shapeMismatch candidates.length values.length)
  else
    match candidates.find? fun c => c.length != o.space.dimension with
    | some c => some (.shapeMismatch o.space.dimension c.length)
    | none =>
      (values.zipIdx.find? fun (value, _) => !value.isFinite).map
        fun (value, index) => .nonFiniteValue index value

omit [Surrogate σ] in
/-- Record evaluated candidates. The whole batch is checked before anything is recorded; a candidate
    outside of the bounds is recorded all the same. -/
def observe (o : Optimizer σ) (candidates : List Candidate) (values : List Float) :
    Except TuneError Unit × Optimizer σ :=
  match o.batchFault? candidates values with
  | some e => (.error e, o)
  | none => o.record (candidates.zip values)

end Optimizer

end DelayTuning
