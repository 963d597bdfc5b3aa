import DelayTuning.Proofs.Run.Session

/-!
# Runs with a recorded evaluator

An evaluator that keeps a record of its calls answers as it does without one. So what the record of a run
says holds of every run, and the record is not part of any evaluator.

## Main definitions

- `Evaluator.Respects`: a map between evaluators that commutes with evaluation
- `RecordedEvaluator`: an evaluator with the record of its calls

## Main statements

- `run_map`: a map that respects the evaluators commutes with runs
- `RecordedEvaluator.exists_run`: every run has a record
-/

namespace DelayTuning

/-- A map between evaluators that commutes with evaluation. -/
def Evaluator.Respects {ε δ : Type} [Evaluator ε] [Evaluator δ] (f : ε → δ) : Prop :=
  ∀ e candidate,
    Evaluator.evaluate (f e) candidate = Prod.map id f (Evaluator.evaluate e candidate)

/-- An evaluator with the record of its calls, the first one first. -/
structure RecordedEvaluator (ε : Type) where
  evaluator : ε
  calls : List (Candidate × Evaluation)

namespace RecordedEvaluator

variable {ε : Type} [Evaluator ε]

instance instEvaluator : Evaluator (RecordedEvaluator ε) where
  evaluate r candidate :=
    let (answer, e) := Evaluator.evaluate r.evaluator candidate
    (answer, ⟨e, r.calls ++ [(candidate, answer)]⟩)

/-- The answer is that of the evaluator, and it is recorded. -/
theorem evaluate_eq (r : RecordedEvaluator ε) (candidate : Candidate) :
    Evaluator.evaluate r candidate =
      ((Evaluator.evaluate r.evaluator candidate).1,
        ⟨(Evaluator.evaluate r.evaluator candidate).2,
          r.calls ++ [(candidate, (Evaluator.evaluate r.evaluator candidate).1)]⟩) :=
  rfl

theorem respects_evaluator :
    Evaluator.Respects (RecordedEvaluator.evaluator : RecordedEvaluator ε → ε) :=
  fun _ _ => rfl

end RecordedEvaluator

variable {σ ε δ : Type} [Surrogate σ] [Evaluator ε] [Evaluator δ] {f : ε → δ}

namespace Session

omit [Evaluator ε] [Evaluator δ] in
/-- The session with another evaluator in the place of its own. -/
def map (f : ε → δ) (s : Session ε) : Session δ :=
  ⟨f s.evaluator, s.tally⟩

theorem commutes_map (hf : Evaluator.Respects f) : Commutes (map f) := by
  intro s candidate
  have hevaluate : Evaluator.evaluate (s.map f).evaluator candidate =
      Prod.map id f (Evaluator.evaluate s.evaluator candidate) := hf s.evaluator candidate
  rw [call, call, hevaluate]
  obtain ⟨answer, e⟩ := Evaluator.evaluate s.evaluator candidate
  simp only [Prod.map, id_eq]
  cases usableValue answer with
  | ok value => rfl
  | error failure => rfl

end Session

namespace Progress

omit [Surrogate σ] [Evaluator ε] [Evaluator δ] in
/-- The state of a run with another evaluator in the place of its own. -/
def map (f : ε → δ) (p : Progress σ ε) : Progress σ δ :=
  ⟨p.optimizer, p.session.map f⟩

omit [Surrogate σ] in
theorem evaluateAndObserve_map (hf : Evaluator.Respects f) (config : RunConfig)
    (p : Progress σ ε) (batch : List Candidate) :
    (p.map f).evaluateAndObserve config batch =
      Prod.map id (map f) (p.evaluateAndObserve config batch) :=
  (Session.commutes_map hf).evaluateAndObserve config p batch

theorem round_map (hf : Evaluator.Respects f) (config : RunConfig) (p : Progress σ ε) :
    (p.map f).round config = Prod.map id (map f) (p.round config) :=
  (Session.commutes_map hf).round config p

theorem seedsAndRounds_map (hf : Evaluator.Respects f) (config : RunConfig) (p : Progress σ ε) :
    (p.map f).seedsAndRounds config = Prod.map id (map f) (p.seedsAndRounds config) := by
  rw [seedsAndRounds, seedsAndRounds, evaluateAndObserve_map hf]
  obtain ⟨_ | _, next⟩ := p.evaluateAndObserve config config.seeds
  · rfl
  · exact (Session.commutes_map hf).rounds config config.iterations next

end Progress

/-- A map that respects the evaluators commutes with runs: the outcome and the optimizer are the same. -/
theorem run_map (hf : Evaluator.Respects f) (config : RunConfig) (o : Optimizer σ) (e : ε) :
    run config o (f e) = Prod.map id (Prod.map id f) (run config o e) := by
  have hstart : (⟨o, ⟨f e, .zero⟩⟩ : Progress σ δ) = Progress.map f ⟨o, ⟨e, .zero⟩⟩ := rfl
  rw [run, run, hstart, Progress.seedsAndRounds_map hf]
  obtain ⟨_ | _, p⟩ := Progress.seedsAndRounds config ⟨o, ⟨e, .zero⟩⟩
  · rfl
  · have houtcome : RunOutcome.ofProgress config (p.map f) = RunOutcome.ofProgress config p := rfl
    simp only [Prod.map, id_eq]
    rw [houtcome]
    cases RunOutcome.ofProgress config p with
    | ok outcome => rfl
    | error e => rfl

/-- Every run is a run with a record of the calls, without the record. -/
theorem RecordedEvaluator.exists_run {config : RunConfig} {o next : Optimizer σ} {e e' : ε}
    {r : Except (Halt RunError) RunOutcome} (h : run config o e = (r, next, e')) :
    ∃ calls, run config o (⟨e, []⟩ : RecordedEvaluator ε) = (r, next, ⟨e', calls⟩) := by
  have hmap : (r, next, e') = Prod.map id (Prod.map id RecordedEvaluator.evaluator)
      (run config o (⟨e, []⟩ : RecordedEvaluator ε)) :=
    h.symm.trans (run_map respects_evaluator config o ⟨e, []⟩)
  rcases hrun : run config o (⟨e, []⟩ : RecordedEvaluator ε) with ⟨r', next', e'', calls⟩
  rw [hrun] at hmap
  cases hmap
  exact ⟨calls, rfl⟩

end DelayTuning
