import DelayTuning.Proofs.Optimizer.Reached
import DelayTuning.Proofs.Run.Accounting

/-!
# The course of a run

What a run does whether or not it has an outcome. Its batches are the seeds and what is suggested in the rounds,
the record of its calls only grows, and a batch that was suggested is never refused when it is observed.

## Main definitions

- `Progress.suggestions`, `batches`: the batches of a run, the seeds first
- `Progress.Follows`, `Progress.Accepts`: the state after some rounds, and that it observes what it suggests

## Main statements

- `Progress.exists_advances_rounds`: the record only grows, however the rounds end
- `Optimizer.observe_of_finite`: what an optimizer says to finite values
- `Optimizer.Reached.observe_of_suggest`: a suggested batch is never refused
- `Optimizer.Reached.outcome_cases`: when a run has an outcome
-/

namespace DelayTuning

variable {σ ε : Type} [Surrogate σ] [Evaluator ε]

/-! ### The batches of a run -/

/-- The batches that are suggested in a number of rounds, up to the first round that fails. -/
def Progress.suggestions (config : RunConfig) : Nat → Progress σ ε → List (List Candidate)
  | 0, _ => []
  | n + 1, p =>
    match p.optimizer.suggest config.batchSize with
    | (.error _, _) => []
    | (.ok batch, _) =>
      batch ::
        match p.round config with
        | (.ok (), next) => suggestions config n next
        | (.error _, _) => []

/-- The batches that a run hands to its evaluator, in order; the seeds are the first one. -/
def batches (config : RunConfig) (o : Optimizer σ) (e : ε) : List (List Candidate) :=
  config.seeds ::
    match Progress.evaluateAndObserve config ⟨o, e, .zero⟩ config.seeds with
    | (.ok (), p) => p.suggestions config config.iterations
    | (.error _, _) => []

section Map

variable {δ : Type} [Evaluator δ] {f : ε → δ}

theorem Progress.suggestions_map (hf : Evaluator.Respects f) (config : RunConfig) (n : Nat)
    (p : Progress σ ε) : (p.map f).suggestions config n = p.suggestions config n := by
  induction n generalizing p with
  | zero => rfl
  | succ n ih =>
    have hoptimizer : (p.map f).optimizer = p.optimizer := rfl
    rw [suggestions, suggestions, hoptimizer, round_map hf]
    rcases p.optimizer.suggest config.batchSize with ⟨_ | batch, asked⟩
    · rfl
    · rcases p.round config with ⟨_ | _, next⟩
      · rfl
      · exact congrArg (batch :: ·) (ih next)

/-- The batches are the same for evaluators that answer the same. -/
theorem batches_map (hf : Evaluator.Respects f) (config : RunConfig) (o : Optimizer σ) (e : ε) :
    batches config o (f e) = batches config o e := by
  have hstart : (⟨o, ⟨f e, .zero⟩⟩ : Progress σ δ) = Progress.map f ⟨o, ⟨e, .zero⟩⟩ := rfl
  rw [batches, batches, hstart, Progress.evaluateAndObserve_map hf]
  rcases Progress.evaluateAndObserve config ⟨o, ⟨e, .zero⟩⟩ config.seeds with ⟨_ | _, next⟩
  · rfl
  · exact congrArg (config.seeds :: ·) (next.suggestions_map hf config config.iterations)

end Map

namespace RecordedEvaluator

theorem batches_eq (config : RunConfig) (o : Optimizer σ) (e : ε) :
    batches config o (⟨e, []⟩ : RecordedEvaluator ε) = batches config o e :=
  (batches_map respects_evaluator config o ⟨e, []⟩).symm

theorem run_eq {config : RunConfig} {o next : Optimizer σ} {e e' : ε}
    {r : Except (Halt RunError) RunOutcome} {calls : List (Candidate × Evaluation)}
    (h : run config o (⟨e, []⟩ : RecordedEvaluator ε) = (r, next, ⟨e', calls⟩)) :
    run config o e = (r, next, e') := by
  have hmap := run_map respects_evaluator config o (⟨e, []⟩ : RecordedEvaluator ε)
  rw [h] at hmap
  exact hmap

end RecordedEvaluator

/-! ### The record -/

namespace Session

theorem exists_advances_evaluateBatch {config : RunConfig} {s next : Session (RecordedEvaluator ε)}
    {batch : List Candidate} {r : Except RunError (List (Candidate × Float))}
    (h : evaluateBatch config batch s = (r, next)) : ∃ calls, Advances s next calls := by
  induction batch generalizing s r with
  | nil =>
    cases h
    exact ⟨[], Advances.refl _⟩
  | cons candidate rest ih =>
    obtain ⟨_, -, hattempt, -⟩ | ⟨attempted, middle, result, -, hattempt, hrest, -⟩ :=
      evaluateBatch_cons_cases h
    · obtain ⟨t, -, -, -, hfirst⟩ := exists_trial_of_attempt hattempt
      exact ⟨_, hfirst⟩
    · obtain ⟨t, -, -, -, hfirst⟩ := exists_trial_of_attempt hattempt
      obtain ⟨calls, hcalls⟩ := ih hrest
      exact ⟨_, hfirst.trans hcalls⟩

end Session

namespace Progress

variable {config : RunConfig} {p next : Progress σ (RecordedEvaluator ε)}
  {r : Except (Halt RunError) Unit}

omit [Surrogate σ] in
theorem exists_advances_evaluateAndObserve {batch : List Candidate}
    (h : p.evaluateAndObserve config batch = (r, next)) :
    ∃ calls, p.session.Advances next.session calls := by
  obtain ⟨_, hbatch, -⟩ | ⟨_, _, hbatch, -⟩ := evaluateAndObserve_cases h
  · exact Session.exists_advances_evaluateBatch hbatch
  · exact Session.exists_advances_evaluateBatch hbatch

theorem exists_advances_round (h : p.round config = (r, next)) :
    ∃ calls, p.session.Advances next.session calls := by
  obtain ⟨_, -, hsession, -⟩ | ⟨_, asked, -, hbatch⟩ := round_cases h
  · rw [hsession]
    exact ⟨[], .refl _⟩
  · show ∃ calls, ({ p with optimizer := asked } : Progress σ _).session.Advances next.session calls
    exact exists_advances_evaluateAndObserve hbatch

/-- The record only grows, however the rounds end. -/
theorem exists_advances_rounds {n : Nat} (h : p.rounds config n = (r, next)) :
    ∃ calls, p.session.Advances next.session calls := by
  induction n generalizing p with
  | zero =>
    cases h
    exact ⟨[], .refl _⟩
  | succ n ih =>
    obtain ⟨_, hround, -⟩ | ⟨middle, hround, hrest⟩ := rounds_succ_cases h
    · exact exists_advances_round hround
    · obtain ⟨first, hfirst⟩ := exists_advances_round hround
      obtain ⟨later, hlater⟩ := ih hrest
      exact ⟨first ++ later, hfirst.trans hlater⟩

end Progress

/-! ### Batches that are observed -/

namespace Optimizer

omit [Surrogate σ] in
/-- Finite values are refused for the first candidate that does not have a coordinate for each parameter, or
they are recorded. -/
theorem observe_of_finite (o : Optimizer σ) {evaluated : List (Candidate × Float)}
    (hfinite : ∀ p ∈ evaluated, p.2.isFinite = true) :
    o.observe (evaluated.map Prod.fst) (evaluated.map Prod.snd) =
      match evaluated.find? fun p => p.1.length != o.space.dimension with
      | some p => (.error (.shapeMismatch o.space.dimension p.1.length), o)
      | none => (.ok (), o.recorded evaluated) := by
  have hlength : (evaluated.map Prod.fst).length = (evaluated.map Prod.snd).length := by simp
  have hvalues : ∀ v ∈ evaluated.map Prod.snd, v.isFinite = true := by
    simpa using fun v c hmem => hfinite (c, v) hmem
  have hnone := (find?_zipIdx_eq_none_iff (evaluated.map Prod.snd)).mpr hvalues
  have hzip : (evaluated.map Prod.fst).zip (evaluated.map Prod.snd) = evaluated :=
    (List.zip_of_prod rfl rfl).symm
  have hfind : (evaluated.map Prod.fst).find? (fun c => c.length != o.space.dimension) =
      (evaluated.find? fun p => p.1.length != o.space.dimension).map Prod.fst :=
    List.find?_map
  rw [observe, batchFault?, if_neg (not_not.mpr hlength), hfind, hnone, hzip]
  cases evaluated.find? fun p => p.1.length != o.space.dimension with
  | some p => rfl
  | none => exact record_of_finite o hfinite

namespace Reached

variable {space : Space Double} {settings : OptimizerConfig} {o asked : Optimizer σ}

theorem find?_of_suggest (ho : Reached space settings o) {size : Nat} {batch : List Candidate}
    (hsuggest : o.suggest size = (.ok batch, asked)) {evaluated : List (Candidate × Float)}
    (hevaluated : ∀ p ∈ evaluated, p.1 ∈ batch) :
    (evaluated.find? fun p => p.1.length != asked.space.dimension) = none := by
  rw [List.find?_eq_none]
  intro p hp
  have hlength := ho.length_of_mem_suggest hsuggest p.1 (hevaluated p hp)
  rw [(ho.suggest hsuggest).space_eq, hlength, bne_self_eq_false]
  exact Bool.false_ne_true

/-- A batch that was suggested is never refused, whichever candidates of it have a value. -/
theorem observe_of_suggest (ho : Reached space settings o) {size : Nat} {batch : List Candidate}
    (hsuggest : o.suggest size = (.ok batch, asked)) {evaluated : List (Candidate × Float)}
    (hevaluated : ∀ p ∈ evaluated, p.1 ∈ batch ∧ p.2.isFinite = true) :
    asked.observe (evaluated.map Prod.fst) (evaluated.map Prod.snd) =
      (.ok (), asked.recorded evaluated) := by
  rw [asked.observe_of_finite fun p hp => (hevaluated p hp).2,
    ho.find?_of_suggest hsuggest fun p hp => (hevaluated p hp).1]

variable {config : RunConfig} {p next : Progress σ ε} {r : Except (Halt RunError) Unit}

omit [Surrogate σ] in
theorem evaluateAndObserve (h : Reached space settings p.optimizer) {batch : List Candidate}
    (hrun : p.evaluateAndObserve config batch = (r, next)) : Reached space settings next.optimizer := by
  obtain ⟨_, -, hsame, -⟩ | ⟨_, _, -, hobserve, -⟩ := Progress.evaluateAndObserve_cases hrun
  · rw [hsame]
    exact h
  · exact h.observe hobserve

theorem round (h : Reached space settings p.optimizer) (hrun : p.round config = (r, next)) :
    Reached space settings next.optimizer := by
  obtain ⟨_, hsuggest, -⟩ | ⟨_, asked, hsuggest, hbatch⟩ := Progress.round_cases hrun
  · exact h.suggest hsuggest
  · have hasked : Reached space settings { p with optimizer := asked }.optimizer := h.suggest hsuggest
    exact hasked.evaluateAndObserve hbatch

theorem rounds (h : Reached space settings p.optimizer) {n : Nat}
    (hrun : p.rounds config n = (r, next)) : Reached space settings next.optimizer := by
  induction n generalizing p with
  | zero =>
    cases hrun
    exact h
  | succ n ih =>
    obtain ⟨_, hround, -⟩ | ⟨middle, hround, hrest⟩ := Progress.rounds_succ_cases hrun
    · exact h.round hround
    · exact ih (h.round hround) hrest

omit [Surrogate σ] [Evaluator ε] in
/-- A run that has gone through all its rounds has an outcome if anything has been observed. -/
theorem outcome_cases (h : Reached space settings p.optimizer) (config : RunConfig) :
    (p.optimizer.ledger.entries = [] ∧ RunOutcome.ofProgress config p = .error .noObservations) ∨
    (p.optimizer.ledger.entries ≠ [] ∧ ∃ outcome, RunOutcome.ofProgress config p = .ok outcome) := by
  have hiff := Ledger.best_eq_error_iff h.indexed
  rw [RunOutcome.ofProgress, Optimizer.best]
  obtain hbest | ⟨best, hbest⟩ := p.optimizer.ledger.best_cases
  · rw [hbest]
    exact Or.inl ⟨hiff.mp hbest, rfl⟩
  · rw [hbest]
    refine Or.inr ⟨?_, _, rfl⟩
    intro hempty
    cases (hiff.mpr hempty).symm.trans hbest

end Reached

end Optimizer

namespace Progress

variable {space : Space Double} {settings : OptimizerConfig} {config : RunConfig} {p : Progress σ ε}

/-- The state of a run after its seeds and a number of rounds, none of which has failed. -/
def Follows (config : RunConfig) (o : Optimizer σ) (e : ε) (n : Nat) (p : Progress σ ε) : Prop :=
  ∃ seeded, evaluateAndObserve config ⟨o, e, .zero⟩ config.seeds = (.ok (), seeded) ∧
    seeded.rounds config n = (.ok (), p)

/-- Whatever comes of the next batch that is suggested, the optimizer will not refuse it. -/
def Accepts (config : RunConfig) (p : Progress σ ε) : Prop :=
  ∀ batch asked evaluated s, p.optimizer.suggest config.batchSize = (.ok batch, asked) →
    Session.evaluateBatch config batch p.session = (.ok evaluated, s) →
      (asked.observe (evaluated.map Prod.fst) (evaluated.map Prod.snd)).1 = .ok ()

theorem Follows.accepts {o : Optimizer σ} (ho : Optimizer.Reached space settings o) {e : ε} {n : Nat}
    (h : Follows config o e n p) : p.Accepts config := by
  obtain ⟨seeded, hseeds, hrounds⟩ := h
  have hstart : Optimizer.Reached space settings (⟨o, e, .zero⟩ : Progress σ ε).optimizer := ho
  intro batch asked evaluated s hsuggest hbatch
  rw [((hstart.evaluateAndObserve hseeds).rounds hrounds).observe_of_suggest hsuggest
    (Session.mem_of_evaluateBatch hbatch)]

end Progress

end DelayTuning
