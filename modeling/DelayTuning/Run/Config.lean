import DelayTuning.Ledger

/-!
# Parameters of a run

## Main definitions

- `FailurePolicy`: what to do with a candidate that cannot be evaluated
- `RunConfig`: the name, the rounds, the seeds and the policy of a run
-/

namespace DelayTuning

/-- What to do when a candidate cannot be evaluated. -/
inductive FailurePolicy where
  /-- Go on without the candidate. -/
  | skip
  /-- Try up to so many times in all, then go on without the candidate. -/
  | retry (attempts : Nat)
  | abort
  deriving DecidableEq, Repr

/-- How many more times a candidate is tried after a first failure. -/
def FailurePolicy.extraAttempts : FailurePolicy → Nat
  | .retry attempts => attempts - 1
  | .skip => 0
  | .abort => 0

/-- The parameters of a run. -/
structure RunConfig where
  name : String
  iterations : Nat
  batchSize : Nat
  /-- The candidates that are evaluated before the first round. -/
  seeds : List Candidate
  policy : FailurePolicy
  deriving DecidableEq, Repr

/-- The parameters that are used unless others are asked for. -/
def RunConfig.standard : RunConfig where
  name := "delay-tune"
  iterations := 30
  batchSize := 1
  seeds := []
  policy := .skip

end DelayTuning
