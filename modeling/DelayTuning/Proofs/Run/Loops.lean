import DelayTuning.Proofs.Run.Trial

/-!
# How the loops of a run can go

A run is a loop over rounds, a round a loop over a batch, and a candidate a loop over attempts. For each of them
one lemma says how it can go, its early ends included; what is proved about runs argues by these cases.

## Main definitions

- `Halt.inRun`: how a run ends when no batch is suggested

## Main statements

- `Session.call_eq`, `Session.evaluateBatch_cons_cases`: a call, a batch
- `Progress.evaluateAndObserve_cases`, `Progress.round_cases`, `Progress.rounds_succ_cases`: one round, all rounds
- `run_cases`: the whole run
- `Session.exists_evaluateBatch_eq_ok`: only the policy to end the run gives up a batch
-/

namespace DelayTuning

variable {σ ε : Type} [Surrogate σ] [Evaluator ε]

/-- The end of a run whose request for a batch ended so. -/
def Halt.inRun : Halt TuneError → Halt RunError
  | .refused e => .refused (.engine e)
  | .unboundedDraw => .unboundedDraw

namespace Session

variable {config : RunConfig} {s next : Session ε} {candidate : Candidate}

/-- A call gives the usable value of the answer, and it is counted as what the answer comes to. -/
theorem call_eq (s : Session ε) (candidate : Candidate) :
    s.call candidate =
      (usableValue (Evaluator.evaluate s.evaluator candidate).1,
        ⟨(Evaluator.evaluate s.evaluator candidate).2,
          if Evaluation.isFailure (Evaluator.evaluate s.evaluator candidate).1 then s.tally.fail
          else s.tally.succeed⟩) := by
  rw [call]
  rcases Evaluator.evaluate s.evaluator candidate with ⟨answer, e⟩
  obtain ⟨hfailed, hvalue⟩ | ⟨value, rfl, hfinite, hvalue⟩ := Evaluation.usableValue_cases answer
  · simp only [hvalue, hfailed, if_true]
  · have hsuccess : Evaluation.isFailure (.ok value) = false := by
      simp [Evaluation.isFailure, hfinite]
    simp only [hvalue, hsuccess, Bool.false_eq_true, if_false]

theorem isFinite_of_call {value : Float} (h : s.call candidate = (.ok value, next)) :
    value.isFinite = true := by
  rw [call_eq] at h
  obtain ⟨hvalue, -⟩ := Prod.mk.inj h
  obtain ⟨-, herror⟩ | ⟨given, -, hfinite, hok⟩ :=
    Evaluation.usableValue_cases (Evaluator.evaluate s.evaluator candidate).1
  · cases herror.symm.trans hvalue
  · cases hok.symm.trans hvalue
    exact hfinite

theorem isFinite_of_attempt {extra : Nat} {value : Float}
    (h : attempt extra s candidate = (.ok value, next)) : value.isFinite = true := by
  induction extra generalizing s with
  | zero => exact isFinite_of_call h
  | succ extra ih =>
    rw [attempt] at h
    rcases hcall : s.call candidate with ⟨failure | given, middle⟩
    · rw [hcall] at h
      exact ih h
    · rw [hcall] at h
      cases h
      exact isFinite_of_call hcall

/-- A batch is given up at its first candidate, or it goes on with the others. -/
theorem evaluateBatch_cons_cases {rest : List Candidate}
    {r : Except RunError (List (Candidate × Float))}
    (h : evaluateBatch config (candidate :: rest) s = (r, next)) :
    (∃ failure, config.policy = .abort ∧
      attempt config.policy.extraAttempts s candidate = (.error failure, next) ∧
      r = .error (.aborted config.name failure)) ∨
    (∃ attempted middle result, (config.policy = .abort → attempted.isOk = true) ∧
      attempt config.policy.extraAttempts s candidate = (attempted, middle) ∧
      evaluateBatch config rest middle = (result, next) ∧
      r = result.map ((attempted.toOption.map fun value => (candidate, value)).toList ++ ·)) := by
  rw [evaluateBatch] at h
  rcases hattempt : attempt config.policy.extraAttempts s candidate with ⟨failure | value, middle⟩
  · rw [hattempt] at h
    simp only at h
    split at h
    · next hpolicy =>
      cases h
      exact Or.inl ⟨failure, hpolicy, rfl, rfl⟩
    · next hpolicy =>
      refine Or.inr ⟨_, middle, r, fun habort => absurd habort hpolicy, rfl, h, ?_⟩
      cases r <;> rfl
  · rw [hattempt] at h
    simp only at h
    rcases hrest : evaluateBatch config rest middle with ⟨_ | kept, last⟩
    · rw [hrest] at h
      cases h
      exact Or.inr ⟨_, middle, _, fun _ => rfl, rfl, hrest, rfl⟩
    · rw [hrest] at h
      cases h
      exact Or.inr ⟨_, middle, _, fun _ => rfl, rfl, hrest, rfl⟩

/-- Only the policy to end the run gives up a batch. -/
theorem exists_evaluateBatch_eq_ok (hpolicy : config.policy ≠ .abort) (batch : List Candidate)
    (s : Session ε) : ∃ evaluated next, evaluateBatch config batch s = (.ok evaluated, next) := by
  induction batch generalizing s with
  | nil => exact ⟨[], s, rfl⟩
  | cons candidate rest ih =>
    rcases h : evaluateBatch config (candidate :: rest) s with ⟨r, next⟩
    obtain ⟨_, habort, -⟩ | ⟨attempted, middle, result, -, -, hrest, rfl⟩ := evaluateBatch_cons_cases h
    · exact absurd habort hpolicy
    · obtain ⟨kept, last, hkept⟩ := ih middle
      cases hrest.symm.trans hkept
      exact ⟨_, _, rfl⟩

/-- A batch that is evaluated goes on after each candidate, with it if it has a value. -/
theorem exists_attempt_of_evaluateBatch {rest : List Candidate} {evaluated : List (Candidate × Float)}
    (h : evaluateBatch config (candidate :: rest) s = (.ok evaluated, next)) :
    ∃ r middle kept, attempt config.policy.extraAttempts s candidate = (r, middle) ∧
      evaluateBatch config rest middle = (.ok kept, next) ∧
      evaluated = (r.toOption.map fun value => (candidate, value)).toList ++ kept := by
  obtain ⟨_, -, -, herror⟩ | ⟨r, middle, result, -, hattempt, hrest, hevaluated⟩ :=
    evaluateBatch_cons_cases h
  · cases herror
  · cases result with
    | error e => cases hevaluated
    | ok kept => exact ⟨r, middle, kept, hattempt, hrest, Except.ok.inj hevaluated⟩

/-- The candidates with a value come from the batch, and their values are finite. -/
theorem mem_of_evaluateBatch {batch : List Candidate} {evaluated : List (Candidate × Float)}
    (h : evaluateBatch config batch s = (.ok evaluated, next)) :
    ∀ p ∈ evaluated, p.1 ∈ batch ∧ p.2.isFinite = true := by
  induction batch generalizing s evaluated with
  | nil =>
    cases h
    simp
  | cons candidate rest ih =>
    obtain ⟨r, middle, kept, hattempt, hrest, rfl⟩ := exists_attempt_of_evaluateBatch h
    intro p hp
    obtain hp | hp := List.mem_append.mp hp
    · cases r with
      | error failure => cases hp
      | ok value =>
        obtain rfl := List.mem_singleton.mp hp
        exact ⟨List.mem_cons_self, isFinite_of_attempt hattempt⟩
    · obtain ⟨hmem, hfinite⟩ := ih hrest p hp
      exact ⟨List.mem_cons_of_mem candidate hmem, hfinite⟩

end Session

namespace Progress

variable {config : RunConfig} {p next : Progress σ ε} {r : Except (Halt RunError) Unit}

omit [Surrogate σ] in
/-- A batch is given up and nothing is observed, or what has a value is observed. -/
theorem evaluateAndObserve_cases {batch : List Candidate}
    (h : p.evaluateAndObserve config batch = (r, next)) :
    (∃ e, Session.evaluateBatch config batch p.session = (.error e, next.session) ∧
      next.optimizer = p.optimizer ∧ r = .error (.refused e)) ∨
    (∃ evaluated result, Session.evaluateBatch config batch p.session = (.ok evaluated, next.session) ∧
      p.optimizer.observe (evaluated.map Prod.fst) (evaluated.map Prod.snd) = (result, next.optimizer) ∧
      r = result.mapError (Halt.refused ∘ RunError.engine)) := by
  rw [evaluateAndObserve] at h
  rcases hbatch : Session.evaluateBatch config batch p.session with ⟨e | evaluated, s⟩
  · rw [hbatch] at h
    cases h
    exact Or.inl ⟨e, rfl, rfl, rfl⟩
  · rw [hbatch] at h
    simp only [observe] at h
    rcases hobserve : p.optimizer.observe (evaluated.map Prod.fst) (evaluated.map Prod.snd) with
      ⟨e | _, told⟩
    · rw [hobserve] at h
      cases h
      exact Or.inr ⟨evaluated, _, rfl, hobserve, rfl⟩
    · rw [hobserve] at h
      cases h
      exact Or.inr ⟨evaluated, _, rfl, hobserve, rfl⟩

/-- A round ends with the request for its batch, or the batch is evaluated and observed. -/
theorem round_cases (h : p.round config = (r, next)) :
    (∃ halt, p.optimizer.suggest config.batchSize = (.error halt, next.optimizer) ∧
      next.session = p.session ∧ r = .error halt.inRun) ∨
    (∃ batch asked, p.optimizer.suggest config.batchSize = (.ok batch, asked) ∧
      evaluateAndObserve config { p with optimizer := asked } batch = (r, next)) := by
  rw [round] at h
  rcases hsuggest : p.optimizer.suggest config.batchSize with ⟨(e | _) | batch, asked⟩
  · rw [hsuggest] at h
    cases h
    exact Or.inl ⟨_, rfl, rfl, rfl⟩
  · rw [hsuggest] at h
    cases h
    exact Or.inl ⟨_, rfl, rfl, rfl⟩
  · rw [hsuggest] at h
    exact Or.inr ⟨batch, asked, rfl, h⟩

theorem rounds_succ_cases {n : Nat} (h : p.rounds config (n + 1) = (r, next)) :
    (∃ halt, p.round config = (.error halt, next) ∧ r = .error halt) ∨
    (∃ middle, p.round config = (.ok (), middle) ∧ middle.rounds config n = (r, next)) := by
  rw [rounds] at h
  rcases hround : p.round config with ⟨halt | _, middle⟩
  · rw [hround] at h
    cases h
    exact Or.inl ⟨halt, rfl, rfl⟩
  · rw [hround] at h
    exact Or.inr ⟨middle, rfl, h⟩

/-- A run ends with its seeds, or the rounds follow. -/
theorem seedsAndRounds_cases (h : p.seedsAndRounds config = (r, next)) :
    (∃ halt, p.evaluateAndObserve config config.seeds = (.error halt, next) ∧ r = .error halt) ∨
    (∃ middle, p.evaluateAndObserve config config.seeds = (.ok (), middle) ∧
      middle.rounds config config.iterations = (r, next)) := by
  rw [seedsAndRounds] at h
  rcases hseeds : p.evaluateAndObserve config config.seeds with ⟨halt | _, middle⟩
  · rw [hseeds] at h
    cases h
    exact Or.inl ⟨halt, rfl, rfl⟩
  · rw [hseeds] at h
    exact Or.inr ⟨middle, rfl, h⟩

end Progress

theorem run_of_error {config : RunConfig} {o : Optimizer σ} {e : ε} {halt : Halt RunError}
    {last : Progress σ ε} (h : Progress.seedsAndRounds config ⟨o, e, .zero⟩ = (.error halt, last)) :
    run config o e = (.error halt, last.optimizer, last.session.evaluator) := by
  rw [run, h]

theorem run_of_ok {config : RunConfig} {o : Optimizer σ} {e : ε} {last : Progress σ ε}
    (h : Progress.seedsAndRounds config ⟨o, e, .zero⟩ = (.ok (), last)) :
    run config o e =
      ((RunOutcome.ofProgress config last).mapError (Halt.refused ∘ RunError.engine),
        last.optimizer, last.session.evaluator) := by
  rw [run, h]
  simp only
  cases RunOutcome.ofProgress config last with
  | ok outcome => rfl
  | error e => rfl

/-- A run ends early, or with what it has come to after all its rounds. -/
theorem run_cases {config : RunConfig} {o next : Optimizer σ} {e e' : ε}
    {r : Except (Halt RunError) RunOutcome} (h : run config o e = (r, next, e')) :
    ∃ (ended : Except (Halt RunError) Unit) (last : Progress σ ε),
      Progress.seedsAndRounds config ⟨o, e, .zero⟩ = (ended, last) ∧
      last.optimizer = next ∧ last.session.evaluator = e' ∧
      ((∃ halt, ended = .error halt ∧ r = .error halt) ∨
      (ended = .ok () ∧
        r = (RunOutcome.ofProgress config last).mapError (Halt.refused ∘ RunError.engine))) := by
  rcases hended : Progress.seedsAndRounds config ⟨o, e, .zero⟩ with ⟨halt | _, last⟩
  · cases (run_of_error hended).symm.trans h
    exact ⟨_, last, rfl, rfl, rfl, Or.inl ⟨halt, rfl, rfl⟩⟩
  · cases (run_of_ok hended).symm.trans h
    exact ⟨_, last, rfl, rfl, rfl, Or.inr ⟨rfl, rfl⟩⟩

end DelayTuning
