import DelayTuning.Command.Transcript
import DelayTuning.Json.Printer
import DelayTuning.Json.Result
import DelayTuning.Space.Delay
import DelayTuning.Surrogate.GaussianProcess

/-!
# The command for tuning

Independent runs on the delay parameters against the synthetic bowl. Each run is written as one line:
its best point, or the whole summary as a JSON value.

## Main definitions

- `TuneSettings`: the settings of the command
- `TuneSettings.runOne`: the outcome of one of the runs
- `TuneSettings.transcript`: all that the command writes
-/

namespace DelayTuning

/-- The settings of the command. -/
structure TuneSettings where
  iterations : Nat
  seed : UInt64
  runs : Nat
  /-- Whether summaries are written as JSON values. -/
  json : Bool
  deriving DecidableEq, Repr

namespace TuneSettings

/-- The settings of an environment. The first variable without a number ends the command. -/
def ofEnvironment (env : Environment) : Except CommandFault TuneSettings := do
  let iterations ← env.count "DELAY_TUNE_ITERATIONS" "30"
  let seed ← env.count "DELAY_TUNE_SEED" "42"
  let runs ← env.count "DELAY_TUNE_RUNS" "1"
  let json := env "DELAY_TUNE_FORMAT" = some "json"
  .ok { iterations, seed := .ofNat seed, runs, json }

/-- The parameters of run `i`. -/
def runConfig (s : TuneSettings) (i : Nat) : RunConfig :=
  { RunConfig.standard with
    name := s!"run-{i}"
    iterations := s.iterations
    seeds := expertSeeds }

/-- The optimizer of run `i`. -/
def optimizer (s : TuneSettings) (i : Nat) : Optimizer GaussianProcess :=
  .start delaySpace .standard { OptimizerConfig.standard with seed := s.seed + .ofNat i }

/-- The outcome of run `i`. -/
def runOne (s : TuneSettings) (i : Nat) : Except (Halt RunError) RunOutcome :=
  (run (s.runConfig i) (s.optimizer i) QuadraticBowl.standard).1

def line (s : TuneSettings) (summary : RunSummary) : String :=
  if s.json then summary.toJson.render else summary.line

/-- All that the command writes for finished runs. The first run without an outcome ends it. -/
def transcript (s : TuneSettings) : List (Except (Halt RunError) RunSummary) → Transcript
  | [] => ⟨[], [], none⟩
  | .ok summary :: rest =>
    let t := s.transcript rest
    { t with out := s.line summary :: t.out }
  | .error cause :: _ => .ofFault (.run cause)

end TuneSettings

end DelayTuning
