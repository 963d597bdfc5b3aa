import DelayTuning.Optimizer.Basic
import DelayTuning.Run.Config
import DelayTuning.Run.Evaluator

/-!
# Runs

A run evaluates and observes its seeds and then goes in rounds: the optimizer suggests a batch, the
evaluator evaluates it, and the optimizer observes the candidates that have a value. The failure policy
says what happens to the others.

## Main definitions

- `Session`: an evaluator with the tally of its calls
- `Session.attempt`: a candidate evaluated up to a number of times
- `Session.evaluateBatch`: the candidates of a batch that have a value
- `Progress.round`, `run`: one round, a whole run
- `runAll`: independent runs

## Design notes

Every part answers together with the state it leaves behind, so that a run that ends early can be
followed by another one with the same optimizer and evaluator.
-/

namespace DelayTuning

/-- Why a run ends without an outcome. -/
inductive RunError where
  | engine (cause : TuneError)
  /-- An evaluation failed, and the policy is to end the run. -/
  | aborted (run : String) (failure : EvaluationFailure)
  deriving DecidableEq, Repr

def RunError.message : RunError → String
  | .engine cause => "Tuning engine error: " ++ cause.message
  | .aborted run failure => "Run '" ++ run ++ "' aborted: " ++ failure.message

/-- How often the evaluator was called, and how many of the calls failed. -/
structure Tally where
  evaluations : Nat
  failures : Nat
  deriving DecidableEq, Repr

/-- The tally before the first call. -/
def Tally.zero : Tally := ⟨0, 0⟩

/-- The tally after a successful call. -/
def Tally.succeed (t : Tally) : Tally := ⟨t.evaluations + 1, t.failures⟩

/-- The tally after a failed call. -/
def Tally.fail (t : Tally) : Tally := ⟨t.evaluations + 1, t.failures + 1⟩

/-- The failure of an evaluation with an infinite value or a NaN. -/
def nonFiniteObjective (value : Float) : EvaluationFailure where
  kind := .malformedOutput
  text := "non-finite objective " ++ shortestText value

/-- The finite value of an evaluation, or the failure it counts as. -/
def usableValue : Except EvaluationFailure Float → Except EvaluationFailure Float
  | .ok value => if value.isFinite then .ok value else .error (nonFiniteObjective value)
  | .error failure => .error failure

/-- An evaluator in the course of a run. -/
structure Session (ε : Type) where
  evaluator : ε
  tally : Tally
  deriving DecidableEq, Repr

namespace Session

variable {ε : Type} [Evaluator ε]

/-- One call of the evaluator. -/
def call (s : Session ε) (candidate : Candidate) : Except EvaluationFailure Float × Session ε :=
  let (answer, evaluator) := Evaluator.evaluate s.evaluator candidate
  match usableValue answer with
  | .ok value => (.ok value, ⟨evaluator, s.tally.succeed⟩)
  | .error failure => (.error failure, ⟨evaluator, s.tally.fail⟩)

/-- A candidate evaluated once, and `extra` more times as long as it fails; the last failure counts. -/
def attempt : Nat → Session ε → Candidate → Except EvaluationFailure Float × Session ε
  | 0, s, candidate => s.call candidate
  | extra + 1, s, candidate =>
    match s.call candidate with
    | (.ok value, s) => (.ok value, s)
    | (.error _, s) => attempt extra s candidate

/-- The candidates of a batch that have a value, with it. Under the policy to end the run the first
    failure ends it. -/
def evaluateBatch (config : RunConfig) :
    List Candidate → Session ε → Except RunError (List (Candidate × Float)) × Session ε
  | [], s => (.ok [], s)
  | candidate :: rest, s =>
    match attempt config.policy.extraAttempts s candidate with
    | (.ok value, s) =>
      match evaluateBatch config rest s with
      | (.ok evaluated, s) => (.ok ((candidate, value) :: evaluated), s)
      | (.error e, s) => (.error e, s)
    | (.error failure, s) =>
      if config.policy = .abort then (.error (.aborted config.name failure), s)
      else evaluateBatch config rest s

end Session

/-- The state of a run: the optimizer and the evaluator with its tally. -/
structure Progress (σ ε : Type) where
  optimizer : Optimizer σ
  session : Session ε
  deriving DecidableEq

namespace Progress

variable {σ ε : Type}

def observe (p : Progress σ ε) (evaluated : List (Candidate × Float)) :
    Except (Halt RunError) Unit × Progress σ ε :=
  match p.optimizer.observe (evaluated.map Prod.fst) (evaluated.map Prod.snd) with
  | (.ok (), optimizer) => (.ok (), { p with optimizer := optimizer })
  | (.error e, optimizer) => (.error (.refused (.engine e)), { p with optimizer := optimizer })

variable [Evaluator ε]

/-- Evaluate a batch and let the optimizer observe the candidates that have a value. -/
def evaluateAndObserve (config : RunConfig) (p : Progress σ ε) (batch : List Candidate) :
    Except (Halt RunError) Unit × Progress σ ε :=
  match Session.evaluateBatch config batch p.session with
  | (.error e, s) => (.error (.refused e), { p with session := s })
  | (.ok evaluated, s) => { p with session := s }.observe evaluated

variable [Surrogate σ]

/-- One round: suggest a batch, evaluate it, observe it. -/
def round (config : RunConfig) (p : Progress σ ε) :
    Except (Halt RunError) Unit × Progress σ ε :=
  match p.optimizer.suggest config.batchSize with
  | (.error (.refused e), optimizer) =>
    (.error (.refused (.engine e)), { p with optimizer := optimizer })
  | (.error .unboundedDraw, optimizer) =>
    (.error .unboundedDraw, { p with optimizer := optimizer })
  | (.ok batch, optimizer) => { p with optimizer := optimizer }.evaluateAndObserve config batch

/-- A number of rounds, up to the first one that fails. -/
def rounds (config : RunConfig) : Nat → Progress σ ε → Except (Halt RunError) Unit × Progress σ ε
  | 0, p => (.ok (), p)
  | n + 1, p =>
    match p.round config with
    | (.ok (), p) => rounds config n p
    | (.error e, p) => (.error e, p)

/-- The seeds, then the rounds. -/
def seedsAndRounds (config : RunConfig) (p : Progress σ ε) :
    Except (Halt RunError) Unit × Progress σ ε :=
  match p.evaluateAndObserve config config.seeds with
  | (.ok (), p) => p.rounds config config.iterations
  | (.error e, p) => (.error e, p)

end Progress

/-- What a finished run has come to. -/
structure RunOutcome where
  name : String
  /-- The number of calls of the evaluator, repeated attempts included. -/
  evaluations : Nat
  failures : Nat
  best : Observation
  convergence : List Float
  deriving DecidableEq, Repr

/-- The outcome of a run that has gone through all its rounds; without any observation there is none. -/
def RunOutcome.ofProgress {σ ε : Type} (config : RunConfig) (p : Progress σ ε) :
    Except TuneError RunOutcome :=
  match p.optimizer.best with
  | .ok best =>
    .ok {
      name := config.name
      evaluations := p.session.tally.evaluations
      failures := p.session.tally.failures
      best := best
      convergence := p.optimizer.ledger.convergence }
  | .error e => .error e

/-- A whole run: its outcome, with the optimizer and the evaluator it leaves behind. -/
def run {σ ε : Type} [Surrogate σ] [Evaluator ε] (config : RunConfig) (optimizer : Optimizer σ)
    (evaluator : ε) : Except (Halt RunError) RunOutcome × Optimizer σ × ε :=
  match Progress.seedsAndRounds config ⟨optimizer, evaluator, .zero⟩ with
  | (.error e, p) => (.error e, p.optimizer, p.session.evaluator)
  | (.ok (), p) =>
    match RunOutcome.ofProgress config p with
    | .ok outcome => (.ok outcome, p.optimizer, p.session.evaluator)
    | .error e => (.error (.refused (.engine e)), p.optimizer, p.session.evaluator)

/-- Independent runs, each with an optimizer and an evaluator of its own. The outcomes are in the order
    of the parameters. -/
def runAll {σ ε : Type} [Surrogate σ] [Evaluator ε] (configs : List RunConfig)
    (makeOptimizer : Nat → RunConfig → Optimizer σ) (makeEvaluator : Nat → RunConfig → ε) :
    List (Except (Halt RunError) RunOutcome) :=
  configs.zipIdx.map fun (config, i) =>
    (run config (makeOptimizer i config) (makeEvaluator i config)).1

end DelayTuning
