import DelayTuning.Ledger

/-!
# Surrogate models

What the optimizer needs of a model of the objective: it is fit on all observations, and it scores
candidates. A model is a state; both operations may change it and both may fail.

## Main definitions

- `Surrogate`: a model that can be fit and can score candidates
-/

namespace DelayTuning

/-- A model of the objective with states `σ`. -/
class Surrogate (σ : Type) where
  name : σ → String
  /-- Learn from all observations so far. -/
  fit : σ → Space Double → List Observation → Except TuneError Unit × σ
  /-- Score each candidate; a score that comes later in the total order means more worth evaluating. -/
  acquire : σ → List Candidate → Except TuneError (List Double) × σ

end DelayTuning
