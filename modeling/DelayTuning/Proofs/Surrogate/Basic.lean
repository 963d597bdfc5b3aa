import DelayTuning.Surrogate.Basic

/-!
# Maps between models, and models that record their calls

A map between models respects them if it commutes with fitting and scoring. A model that keeps a record of
its calls is respected by the map that forgets the record, so whatever is found out from the record holds
of the model itself.

## Main definitions

- `Surrogate.Respects`: a map between models that commutes with their operations
- `ModelCall`, `RecordedModel`: a call of a model, a model with the record of its calls
- `IndifferentModel`: a model for which all candidates are alike
-/

namespace DelayTuning

/-- A map between models that commutes with their operations. -/
structure Surrogate.Respects {σ τ : Type} [Surrogate σ] [Surrogate τ] (f : σ → τ) : Prop where
  name : ∀ s, Surrogate.name (f s) = Surrogate.name s
  fit : ∀ s space observations,
    Surrogate.fit (f s) space observations = Prod.map id f (Surrogate.fit s space observations)
  acquire : ∀ s pool, Surrogate.acquire (f s) pool = Prod.map id f (Surrogate.acquire s pool)

/-- A call of a model. -/
inductive ModelCall where
  /-- The model was fit on these observations, with success or without. -/
  | fit (observations : List Observation) (succeeded : Bool)
  /-- The model was asked for the scores of these candidates. -/
  | acquire (pool : List Candidate)
  deriving DecidableEq, Repr

namespace ModelCall

/-- Whether a call was to fit the model. -/
def isFit : ModelCall → Bool
  | .fit _ _ => true
  | .acquire _ => false

/-- Whether a call was to fit the model, with success. -/
def isSuccessfulFit : ModelCall → Bool
  | .fit _ succeeded => succeeded
  | .acquire _ => false

end ModelCall

/-- A model with the record of its calls, the first one first. -/
structure RecordedModel (σ : Type) where
  model : σ
  calls : List ModelCall
  deriving DecidableEq, Repr

namespace RecordedModel

variable {σ : Type} [Surrogate σ]

instance instSurrogate : Surrogate (RecordedModel σ) where
  name r := Surrogate.name r.model
  fit r space observations :=
    let (result, s) := Surrogate.fit r.model space observations
    (result, ⟨s, r.calls ++ [.fit observations result.isOk]⟩)
  acquire r pool :=
    let (result, s) := Surrogate.acquire r.model pool
    (result, ⟨s, r.calls ++ [.acquire pool]⟩)

/-- Forgetting the record commutes with the operations of the model. -/
theorem respects_model : Surrogate.Respects (RecordedModel.model : RecordedModel σ → σ) where
  name _ := rfl
  fit _ _ _ := rfl
  acquire _ _ := rfl

theorem calls_of_fit {r next : RecordedModel σ} {space : Space Double}
    {observations : List Observation} {result : Except TuneError Unit}
    (h : Surrogate.fit r space observations = (result, next)) :
    next.calls = r.calls ++ [.fit observations result.isOk] := by
  cases h
  rfl

theorem calls_of_acquire {r next : RecordedModel σ} {pool : List Candidate}
    {result : Except TuneError (List Double)}
    (h : Surrogate.acquire r pool = (result, next)) :
    next.calls = r.calls ++ [.acquire pool] := by
  cases h
  rfl

end RecordedModel

/-- A model that learns nothing and gives all candidates the same score. -/
inductive IndifferentModel where
  | indifferent
  deriving DecidableEq, Repr

instance instSurrogateIndifferentModel : Surrogate IndifferentModel where
  name _ := "indifferent"
  fit s _ _ := (.ok (), s)
  acquire s pool := (.ok (pool.map fun _ => 0.0), s)

end DelayTuning
