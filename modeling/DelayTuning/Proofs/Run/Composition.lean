import DelayTuning.Proofs.Run.Accounting

/-!
# Runs one after another

A run can be cut between two rounds: a run with an outcome, followed by a run without seeds of the same optimizer
and evaluator, goes as one run with the rounds of both. Nothing but the optimizer and the evaluator passes the cut.
The tally starts anew there, so the calls of the two parts add up to those of the whole.

## Main definitions

- `Session.carry`: a session with earlier calls on its tally
- `RunOutcome.followedBy`: the outcome of two runs as one

## Main statements

- `Progress.rounds_add`: rounds in two parts
- `Progress.rounds_with`: the rounds of a run depend neither on its seeds nor on their number
- `Progress.seedsAndRounds_nil`, `Progress.seedsAndRounds_add`: the second run, and the run with the rounds of both
- `run_followed_by`: the whole run
-/

namespace DelayTuning

variable {σ ε : Type} [Surrogate σ] [Evaluator ε]

/-! ### Rounds in two parts -/

namespace Progress

/-- Rounds that do not fail can be followed by more rounds. -/
theorem rounds_add {config : RunConfig} {p middle : Progress σ ε} {m : Nat}
    (h : p.rounds config m = (.ok (), middle)) (n : Nat) :
    p.rounds config (m + n) = middle.rounds config n := by
  induction m generalizing p with
  | zero =>
    cases h
    rw [Nat.zero_add]
  | succ m ih =>
    obtain ⟨_, -, herror⟩ | ⟨next, hround, hrest⟩ := rounds_succ_cases h
    · cases herror
    · rw [Nat.succ_add, rounds, hround]
      exact ih hrest

omit [Surrogate σ] in
/-- A batch without candidates changes nothing. -/
theorem evaluateAndObserve_nil (config : RunConfig) (p : Progress σ ε) :
    p.evaluateAndObserve config [] = (.ok (), p) := rfl

end Progress

/-! ### Other seeds and another number of rounds -/

section Settings

variable (config : RunConfig) (iterations : Nat) (seeds : List Candidate)

omit [Surrogate σ] in
theorem Session.evaluateBatch_with (batch : List Candidate) (s : Session ε) :
    evaluateBatch { config with iterations := iterations, seeds := seeds } batch s =
      evaluateBatch config batch s := by
  induction batch generalizing s with
  | nil => rfl
  | cons candidate rest ih => simp only [evaluateBatch, ih]

namespace Progress

omit [Surrogate σ] in
theorem evaluateAndObserve_with (p : Progress σ ε) (batch : List Candidate) :
    p.evaluateAndObserve { config with iterations := iterations, seeds := seeds } batch =
      p.evaluateAndObserve config batch := by
  rw [evaluateAndObserve, evaluateAndObserve, Session.evaluateBatch_with]

theorem round_with (p : Progress σ ε) :
    p.round { config with iterations := iterations, seeds := seeds } = p.round config := by
  simp only [round, evaluateAndObserve_with]

/-- The rounds read only the name, the batch size and the policy of a run. -/
theorem rounds_with (n : Nat) (p : Progress σ ε) :
    p.rounds { config with iterations := iterations, seeds := seeds } n = p.rounds config n := by
  induction n generalizing p with
  | zero => rfl
  | succ n ih => simp only [rounds, round_with, ih]

/-- A run without seeds is its rounds. -/
theorem seedsAndRounds_nil (p : Progress σ ε) :
    p.seedsAndRounds { config with iterations := iterations, seeds := [] } = p.rounds config iterations := by
  rw [seedsAndRounds, evaluateAndObserve_nil]
  exact rounds_with config iterations [] iterations p

end Progress

end Settings

/-- After the seeds and some of the rounds a run goes on with the others. -/
theorem Progress.seedsAndRounds_add {config : RunConfig} {p seeded last : Progress σ ε} {a : Nat}
    (hseeds : p.evaluateAndObserve config config.seeds = (.ok (), seeded))
    (hrounds : seeded.rounds config a = (.ok (), last)) (b : Nat) :
    p.seedsAndRounds { config with iterations := a + b } = last.rounds config b := by
  rw [seedsAndRounds, evaluateAndObserve_with, hseeds]
  simp only
  rw [rounds_with, rounds_add hrounds]

/-! ### Earlier calls on the tally -/

def Tally.add (t u : Tally) : Tally :=
  ⟨t.evaluations + u.evaluations, t.failures + u.failures⟩

omit [Evaluator ε] in
/-- A session with earlier calls on its tally. -/
def Session.carry (t : Tally) (s : Session ε) : Session ε :=
  ⟨s.evaluator, t.add s.tally⟩

omit [Surrogate σ] in
/-- What has been called before is not looked at. -/
theorem Session.commutes_carry (t : Tally) : Commutes (carry t : Session ε → Session ε) := by
  intro s candidate
  have hevaluator : (s.carry t).evaluator = s.evaluator := rfl
  rw [call, call, hevaluator]
  obtain ⟨answer, e⟩ := Evaluator.evaluate s.evaluator candidate
  simp only
  cases usableValue answer with
  | ok value => rfl
  | error failure => rfl

/-! ### The whole run -/

/-- The outcome of a run and of the run that follows it as that of a single run. -/
def RunOutcome.followedBy (first second : RunOutcome) : RunOutcome :=
  { second with
    evaluations := first.evaluations + second.evaluations
    failures := first.failures + second.failures }

omit [Surrogate σ] [Evaluator ε] in
/-- With the calls of the first run on its tally, a run comes to the outcome of both. -/
theorem RunOutcome.ofProgress_carry (config config' : RunConfig) (hname : config'.name = config.name)
    {t : Tally} {first : RunOutcome} (hevaluations : first.evaluations = t.evaluations)
    (hfailures : first.failures = t.failures) (p : Progress σ ε) :
    ofProgress config' (p.mapSession (Session.carry t)) = (ofProgress config p).map first.followedBy := by
  have hoptimizer : (p.mapSession (Session.carry t)).optimizer = p.optimizer := rfl
  rw [ofProgress, ofProgress, hoptimizer, hname]
  cases p.optimizer.best with
  | error e => rfl
  | ok best =>
    simp only [Except.map, followedBy, hevaluations, hfailures]
    rfl

/-- Let a run with an outcome be followed by a run of the same optimizer and evaluator, with the same parameters but
without seeds. A single run with the seeds of the first and the rounds of both leaves the same optimizer and
evaluator behind. It ends with the error of the second run, or with its outcome, to which the calls of the first run
and the failed ones among them are added. -/
theorem run_followed_by (config : RunConfig) (a b : Nat) {o o₁ o₂ : Optimizer σ} {e e₁ e₂ : ε}
    {first : RunOutcome} {r : Except (Halt RunError) RunOutcome}
    (hfirst : run { config with iterations := a } o e = (.ok first, o₁, e₁))
    (hsecond : run { config with iterations := b, seeds := [] } o₁ e₁ = (r, o₂, e₂)) :
    run { config with iterations := a + b } o e = (r.map first.followedBy, o₂, e₂) := by
  obtain ⟨p, last, hseeds, hrounds, rfl, rfl, hevaluations, hfailures⟩ := exists_progress_of_run hfirst
  rw [Progress.evaluateAndObserve_with] at hseeds
  rw [Progress.rounds_with] at hrounds
  -- the second run starts where the first one ends, but with an empty tally
  have hcut : last = Progress.mapSession (Session.carry last.session.tally)
      ⟨last.optimizer, last.session.evaluator, .zero⟩ := rfl
  have hrest := Progress.seedsAndRounds_nil config b
    (⟨last.optimizer, last.session.evaluator, .zero⟩ : Progress σ ε)
  have hwhole := Progress.seedsAndRounds_add hseeds hrounds b
  rw [hcut, (Session.commutes_carry _).rounds] at hwhole
  rcases hended : Progress.rounds config b ⟨last.optimizer, last.session.evaluator, .zero⟩ with
    ⟨halt | _, final⟩
  · rw [hended] at hrest
    rw [hended, Prod.map_apply, id_eq] at hwhole
    cases (run_of_error hrest).symm.trans hsecond
    have hrun := run_of_error hwhole
    exact hrun
  · rw [hended] at hrest
    rw [hended, Prod.map_apply, id_eq] at hwhole
    cases (run_of_ok hrest).symm.trans hsecond
    have hrun := run_of_ok hwhole
    rw [RunOutcome.ofProgress_carry { config with iterations := b, seeds := [] }
      { config with iterations := a + b } rfl hevaluations hfailures] at hrun
    refine hrun.trans ?_
    cases RunOutcome.ofProgress { config with iterations := b, seeds := [] } final with
    | error cause => rfl
    | ok second => rfl

/-! ### A run that is cut after its first round -/

def cutConfig : RunConfig :=
  { RunConfig.standard with
    batchSize := 2
    seeds := [[0.5]]
    policy := .retry 2 }

/-- The seed is given up, and the first candidate of the first round is tried twice, so three of the five calls before
the cut fail. -/
theorem cutRun_followed_by :
    ∃ first r o₁ o₂ e₁ e₂,
      run { cutConfig with iterations := 1 } Optimizer.pointSearch (⟨3⟩ : SlowStarter) = (.ok first, o₁, e₁) ∧
      first.evaluations = 5 ∧ first.failures = 3 ∧
      run { cutConfig with iterations := 1, seeds := [] } o₁ e₁ = (r, o₂, e₂) ∧
      run { cutConfig with iterations := 2 } Optimizer.pointSearch (⟨3⟩ : SlowStarter) =
        (r.map first.followedBy, o₂, e₂) := by
  have htally : (run { cutConfig with iterations := 1 } Optimizer.pointSearch
      (⟨3⟩ : SlowStarter)).1.toOption.map (fun outcome => (outcome.evaluations, outcome.failures)) =
        some (5, 3) := by
    decide +kernel
  rcases hfirst : run { cutConfig with iterations := 1 } Optimizer.pointSearch (⟨3⟩ : SlowStarter) with
    ⟨halt | first, o₁, e₁⟩
  · rw [hfirst] at htally
    cases htally
  · rw [hfirst] at htally
    obtain ⟨hevaluations, hfailures⟩ := Prod.mk.inj (Option.some.inj htally)
    rcases hsecond : run { cutConfig with iterations := 1, seeds := [] } o₁ e₁ with ⟨r, o₂, e₂⟩
    have hwhole : run { cutConfig with iterations := 1 + 1 } Optimizer.pointSearch (⟨3⟩ : SlowStarter) =
        (r.map first.followedBy, o₂, e₂) := run_followed_by cutConfig 1 1 hfirst hsecond
    exact ⟨first, r, o₁, o₂, e₁, e₂, rfl, hevaluations, hfailures, hsecond, hwhole⟩

end DelayTuning
