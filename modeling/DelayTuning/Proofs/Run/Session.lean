import DelayTuning.Proofs.Run.Trial

/-!
# Maps between sessions

What goes on in a run depends on the session only through the calls of its evaluator. So a map between sessions that
commutes with calls commutes with all loops of a run, from the attempts for a candidate to the rounds: the results
and the optimizer are the same, and the session that is left behind is mapped.

## Main definitions

- `Session.Commutes`: a map between sessions that commutes with calls
- `Progress.mapSession`: a run with another session

## Main statements

- `Session.Commutes.attempt`, `Session.Commutes.evaluateBatch`: attempts and batches
- `Session.Commutes.evaluateAndObserve`, `Session.Commutes.round`, `Session.Commutes.rounds`: rounds
-/

namespace DelayTuning

variable {σ ε δ : Type} [Surrogate σ] [Evaluator ε] [Evaluator δ] {g : Session ε → Session δ}

namespace Session

/-- A map between sessions that commutes with calls of the evaluators. -/
def Commutes (g : Session ε → Session δ) : Prop :=
  ∀ s candidate, (g s).call candidate = Prod.map id g (s.call candidate)

theorem Commutes.attempt (hg : Commutes g) (extra : Nat) (s : Session ε) (candidate : Candidate) :
    Session.attempt extra (g s) candidate = Prod.map id g (Session.attempt extra s candidate) := by
  induction extra generalizing s with
  | zero => exact hg s candidate
  | succ extra ih =>
    rw [Session.attempt, Session.attempt, hg]
    obtain ⟨_ | _, next⟩ := s.call candidate
    · exact ih next
    · rfl

theorem Commutes.evaluateBatch (hg : Commutes g) (config : RunConfig) (batch : List Candidate)
    (s : Session ε) :
    Session.evaluateBatch config batch (g s) =
      Prod.map id g (Session.evaluateBatch config batch s) := by
  induction batch generalizing s with
  | nil => rfl
  | cons candidate rest ih =>
    rw [Session.evaluateBatch, Session.evaluateBatch, hg.attempt]
    obtain ⟨_ | _, next⟩ := Session.attempt config.policy.extraAttempts s candidate
    · simp only [Prod.map, id_eq]
      split
      · rfl
      · exact ih next
    · simp only [Prod.map, id_eq]
      rw [ih next]
      obtain ⟨_ | _, last⟩ := Session.evaluateBatch config rest next
      · rfl
      · rfl

end Session

namespace Progress

omit [Surrogate σ] [Evaluator ε] [Evaluator δ] in
/-- The state of a run with another session in the place of its own. -/
def mapSession (g : Session ε → Session δ) (p : Progress σ ε) : Progress σ δ :=
  ⟨p.optimizer, g p.session⟩

omit [Surrogate σ] [Evaluator ε] [Evaluator δ] in
theorem observe_mapSession (g : Session ε → Session δ) (p : Progress σ ε)
    (evaluated : List (Candidate × Float)) :
    (p.mapSession g).observe evaluated = Prod.map id (mapSession g) (p.observe evaluated) := by
  have hoptimizer : (p.mapSession g).optimizer = p.optimizer := rfl
  rw [observe, observe, hoptimizer]
  obtain ⟨_ | _, o⟩ := p.optimizer.observe (evaluated.map Prod.fst) (evaluated.map Prod.snd)
  · rfl
  · rfl

end Progress

namespace Session.Commutes

open Progress

omit [Surrogate σ] in
theorem evaluateAndObserve (hg : Commutes g) (config : RunConfig) (p : Progress σ ε)
    (batch : List Candidate) :
    (p.mapSession g).evaluateAndObserve config batch =
      Prod.map id (mapSession g) (p.evaluateAndObserve config batch) := by
  have hsession : Session.evaluateBatch config batch (p.mapSession g).session =
      Prod.map id g (Session.evaluateBatch config batch p.session) :=
    hg.evaluateBatch config batch p.session
  rw [Progress.evaluateAndObserve, Progress.evaluateAndObserve, hsession]
  obtain ⟨_ | evaluated, s⟩ := Session.evaluateBatch config batch p.session
  · rfl
  · exact observe_mapSession g { p with session := s } evaluated

theorem round (hg : Commutes g) (config : RunConfig) (p : Progress σ ε) :
    (p.mapSession g).round config = Prod.map id (mapSession g) (p.round config) := by
  have hoptimizer : (p.mapSession g).optimizer = p.optimizer := rfl
  rw [Progress.round, Progress.round, hoptimizer]
  obtain ⟨(_ | _) | batch, o⟩ := p.optimizer.suggest config.batchSize
  · rfl
  · rfl
  · exact hg.evaluateAndObserve config { p with optimizer := o } batch

theorem rounds (hg : Commutes g) (config : RunConfig) (n : Nat) (p : Progress σ ε) :
    (p.mapSession g).rounds config n = Prod.map id (mapSession g) (p.rounds config n) := by
  induction n generalizing p with
  | zero => rfl
  | succ n ih =>
    rw [Progress.rounds, Progress.rounds, hg.round]
    obtain ⟨_ | _, next⟩ := p.round config
    · rfl
    · exact ih next

end Session.Commutes

end DelayTuning
