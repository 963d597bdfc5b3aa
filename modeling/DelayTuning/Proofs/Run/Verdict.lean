import DelayTuning.Proofs.Optimizer.Answered
import DelayTuning.Proofs.Run.Course

/-!
# How a run with a Gaussian process ends

A run that is not ended for a failed call ends with a seed of the wrong length, with a batch size that is out of
range, with a kernel matrix that has no factor, without any observation, or with an outcome. Which of these it is
can be read off the seeds, the parameters and the calls that failed; only whether all kernel matrices have a factor
is up to the arithmetic. Each round keeps what makes the other errors impossible: all observations are points of
the space's dimension, and a model that is not stale has been fit.

## Main definitions

- `Sound`: what every round keeps
- `Verdict`: how a run ends, in order of precedence

## Main statements

- `Progress.exists_trials_of_seeds`, `Sound.exists_trials_of_rounds`: what the seeds and the rounds come to
- `run_verdict`: the whole run
-/

namespace DelayTuning

/-! ### Evaluating and observing -/

namespace Progress

variable {σ ε : Type} [Evaluator ε] {config : RunConfig} {p next : Progress σ (RecordedEvaluator ε)}
  {r : Except (Halt RunError) Unit}

/-- A batch is observed, unless a candidate with a value is not a point of the space's dimension. -/
theorem exists_trials_of_policy (hpolicy : config.policy ≠ .abort) {batch : List Candidate}
    (h : p.evaluateAndObserve config batch = (r, next)) :
    ∃ trials : List Trial, trials.map Trial.candidate = batch ∧
      (∀ t ∈ trials, t.Complete config.policy.attempts) ∧
      p.session.Advances next.session (trials.flatMap Trial.calls) ∧
      match (trials.filterMap Trial.evaluated?).find? fun p' =>
        p'.1.length != p.optimizer.space.dimension with
      | some p' =>
        r = .error (.refused (.engine (.shapeMismatch p.optimizer.space.dimension p'.1.length))) ∧
          next.optimizer = p.optimizer
      | none => r = .ok () ∧
          next.optimizer = p.optimizer.recorded (trials.filterMap Trial.evaluated?) := by
  obtain ⟨e, hbatch, -⟩ | ⟨evaluated, result, hbatch, hobserve, rfl⟩ := evaluateAndObserve_cases h
  · obtain ⟨evaluated, s, hok⟩ := Session.exists_evaluateBatch_eq_ok hpolicy batch p.session
    cases hbatch.symm.trans hok
  · obtain ⟨trials, hcandidates, hcomplete, rfl, hcalls⟩ :=
      Session.exists_trials_of_evaluateBatch hbatch
    refine ⟨trials, hcandidates, hcomplete, hcalls, ?_⟩
    rw [p.optimizer.observe_of_finite fun p' hp => (Session.mem_of_evaluateBatch hbatch p' hp).2]
      at hobserve
    cases hfind : (trials.filterMap Trial.evaluated?).find? fun p' =>
        p'.1.length != p.optimizer.space.dimension with
    | some p' =>
      rw [hfind] at hobserve
      obtain ⟨rfl, hnext⟩ := Prod.mk.inj hobserve
      exact ⟨rfl, hnext.symm⟩
    | none =>
      rw [hfind] at hobserve
      obtain ⟨rfl, hnext⟩ := Prod.mk.inj hobserve
      exact ⟨rfl, hnext.symm⟩

end Progress

theorem exists_trial_of_mem_evaluated {trials : List Trial} {p : Candidate × Float}
    (h : p ∈ trials.filterMap Trial.evaluated?) : p.1 ∈ trials.map Trial.candidate := by
  obtain ⟨t, ht, hevaluated⟩ := List.mem_filterMap.mp h
  obtain ⟨value, -, rfl⟩ := Option.map_eq_some_iff.mp hevaluated
  exact List.mem_map_of_mem ht

/-- There is no observation exactly if all calls failed. -/
theorem observations_eq_nil_iff {limit : ℕ} {trials : List Trial} (h : ∀ t ∈ trials, t.Complete limit) :
    trials.filterMap Trial.observation? = [] ↔
      ∀ call ∈ trials.flatMap Trial.calls, call.2.isFailure = true := by
  have hlength := length_flatMap_calls h
  rw [← Optimizer.observations_filterMap, Optimizer.observations, List.map_eq_nil_iff,
    ← List.length_eq_zero_iff, ← List.countP_eq_length]
  omega

/-! ### Seeds and rounds -/

/-- What every round of a run with a Gaussian process keeps. -/
structure Sound (space : Space Double) (settings : OptimizerConfig) (o : Optimizer GaussianProcess) :
    Prop where
  reached : Optimizer.Reached space settings o
  informed : Optimizer.Informed o

namespace Sound

open Optimizer

variable {ε : Type} [Evaluator ε] {space : Space Double} {settings : OptimizerConfig}

theorem after (space : Space Double) (gp : GaussianProcess) (settings : OptimizerConfig)
    (history : List Call) : Sound space settings ((start space gp settings).after history) :=
  ⟨reached_after space gp settings history, (informed_start space gp settings).after history⟩

theorem recorded {o : Optimizer GaussianProcess} (h : Sound space settings o)
    {evaluated : List (Candidate × Float)}
    (hdimension : ∀ p ∈ evaluated, p.1.length = space.dimension) :
    Sound space settings (o.recorded evaluated) :=
  ⟨h.reached.recorded hdimension, h.informed.withRecorded (h.reached.space_eq ▸ hdimension)⟩

variable {config : RunConfig} {p next : Progress GaussianProcess (RecordedEvaluator ε)}
  {r : Except (Halt RunError) Unit}

/-- A round is learned as a whole, or the model cannot be fit and nothing is evaluated. -/
theorem round_cases (h : Sound space settings p.optimizer) (hwidths : space.HasFiniteWidths)
    (hpolicy : config.policy ≠ .abort) (hsize : Proper config.batchSize)
    (hround : p.round config = (r, next)) :
    (r = .error (.refused (.engine (.surrogate (.notPositiveDefinite next.optimizer.count)))) ∧
      next = p ∧ Unfit next.optimizer) ∨
    (r = .ok () ∧ Sound space settings next.optimizer ∧
      ∃ trials : List Trial, (∀ t ∈ trials, t.Complete config.policy.attempts) ∧
        p.session.Advances next.session (trials.flatMap Trial.calls) ∧
        next.optimizer.ledger.entries =
          p.optimizer.ledger.entries ++ trials.filterMap Trial.observation?) := by
  have hfinite : p.optimizer.space.HasFiniteWidths := h.reached.space_eq ▸ hwidths
  obtain ⟨halt, hsuggest, hsession, rfl⟩ | ⟨batch, asked, hsuggest, hbatch⟩ :=
    Progress.round_cases hround
  · left
    obtain ⟨hhalt, hsame, hunfit⟩ | ⟨_, hok, -⟩ := h.informed.suggest_outcomes hfinite hsize hsuggest
    · cases hhalt
      have hnext : next = p := by
        cases next
        cases p
        cases hsame
        cases hsession
        rfl
      rw [hnext]
      exact ⟨rfl, rfl, hunfit⟩
    · cases hok
  · right
    obtain ⟨herror, -⟩ | ⟨_, -, hinformed⟩ := h.informed.suggest_outcomes hfinite hsize hsuggest
    · cases herror
    have hasked : Sound space settings asked := ⟨h.reached.suggest hsuggest, hinformed⟩
    obtain ⟨trials, rfl, hcomplete, hcalls, hresult⟩ := Progress.exists_trials_of_policy hpolicy hbatch
    have hmem : ∀ q ∈ trials.filterMap Trial.evaluated?, q.1 ∈ trials.map Trial.candidate :=
      fun _ => exists_trial_of_mem_evaluated
    rw [h.reached.find?_of_suggest hsuggest hmem] at hresult
    obtain ⟨rfl, hnext⟩ := hresult
    refine ⟨rfl, ?_, trials, hcomplete, hcalls, ?_⟩
    · rw [hnext]
      exact hasked.recorded fun q hq => h.reached.length_of_mem_suggest hsuggest q.1 (hmem q hq)
    · rw [hnext, entries_recorded, observations_filterMap, ← ledger_of_suggest hsuggest]

/-- The rounds are learned one after the other, up to one in which the model cannot be fit. -/
theorem exists_trials_of_rounds (h : Sound space settings p.optimizer)
    (hwidths : space.HasFiniteWidths) (hpolicy : config.policy ≠ .abort) {n : ℕ}
    (hsize : n ≠ 0 → Proper config.batchSize) (hrounds : p.rounds config n = (r, next)) :
    ∃ trials : List Trial, (∀ t ∈ trials, t.Complete config.policy.attempts) ∧
      p.session.Advances next.session (trials.flatMap Trial.calls) ∧
      next.optimizer.ledger.entries =
        p.optimizer.ledger.entries ++ trials.filterMap Trial.observation? ∧
      Sound space settings next.optimizer ∧
      (r = .ok () ∨
        (r = .error (.refused (.engine (.surrogate (.notPositiveDefinite next.optimizer.count)))) ∧
          Unfit next.optimizer)) := by
  induction n generalizing p with
  | zero =>
    cases hrounds
    exact ⟨[], by simp, .refl _, by simp, h, Or.inl rfl⟩
  | succ n ih =>
    have hproper := hsize n.succ_ne_zero
    obtain ⟨halt, hround, rfl⟩ | ⟨middle, hround, hrest⟩ := Progress.rounds_succ_cases hrounds
    · obtain ⟨herror, rfl, hunfit⟩ | ⟨hok, -⟩ := h.round_cases hwidths hpolicy hproper hround
      · exact ⟨[], by simp, .refl _, by simp, h, Or.inr ⟨herror, hunfit⟩⟩
      · cases hok
    · obtain ⟨herror, -⟩ | ⟨-, hmiddle, trials, hcomplete, hcalls, hentries⟩ :=
        h.round_cases hwidths hpolicy hproper hround
      · cases herror
      obtain ⟨later, hlater, hlaterCalls, hlaterEntries, hnext, hr⟩ :=
        ih hmiddle (fun _ => hproper) hrest
      refine ⟨trials ++ later, List.forall_mem_append.mpr ⟨hcomplete, hlater⟩, ?_, ?_, hnext, hr⟩
      · rw [List.flatMap_append]
        exact hcalls.trans hlaterCalls
      · rw [hlaterEntries, hentries, List.filterMap_append, List.append_assoc]

end Sound

/-! ### The whole run -/

section Run

open Optimizer

variable {ε : Type} [Evaluator ε] {space : Space Double} {settings : OptimizerConfig}
  {config : RunConfig} {o : Optimizer GaussianProcess} {e : RecordedEvaluator ε}
  {last : Progress GaussianProcess (RecordedEvaluator ε)} {ended : Except (Halt RunError) Unit}

/-- The batch size of a run is used, and it is out of range. -/
def RunConfig.Oversteps (config : RunConfig) : Prop :=
  1 ≤ config.iterations ∧ (config.batchSize = 0 ∨ maxBatchSize < config.batchSize)

instance instDecidableOversteps (config : RunConfig) : Decidable config.Oversteps :=
  inferInstanceAs (Decidable (_ ∧ _))

theorem proper_of_not_oversteps (h : ¬ config.Oversteps) (hiterations : config.iterations ≠ 0) :
    Proper config.batchSize := by
  rw [RunConfig.Oversteps] at h
  rw [Proper]
  omega

theorem exists_rounds_of_oversteps {σ : Type} [Surrogate σ] (h : config.Oversteps) (p : Progress σ ε) :
    ∃ fault, p.rounds config config.iterations =
      (.error (.refused (.engine (.invalidRequest fault))), p) := by
  obtain ⟨hiterations, hsize⟩ := h
  obtain ⟨n, hn⟩ := Nat.exists_eq_add_of_le' hiterations
  have himproper : ¬ Proper config.batchSize := by
    rw [Proper]
    omega
  obtain ⟨fault, hsuggest⟩ := exists_suggest_of_not_proper p.optimizer himproper
  refine ⟨fault, ?_⟩
  rw [hn, Progress.rounds, Progress.round, hsuggest]

/-- How a run goes can be read off its seeds and its parameters, up to a model that cannot be fit. -/
theorem exists_seeds_of_seedsAndRounds (ho : Sound space settings o) (hwidths : space.HasFiniteWidths)
    (hpolicy : config.policy ≠ .abort)
    (h : Progress.seedsAndRounds config ⟨o, e, .zero⟩ = (ended, last)) :
    ∃ (seeds : List Trial) (later : List (Candidate × Evaluation)),
      seeds.map Trial.candidate = config.seeds ∧ (∀ t ∈ seeds, t.Complete config.policy.attempts) ∧
      last.session.evaluator.calls = e.calls ++ (seeds.flatMap Trial.calls ++ later) ∧
      match (seeds.filterMap Trial.evaluated?).find? fun p => p.1.length != space.dimension with
      | some p => ended = .error (.refused (.engine (.shapeMismatch space.dimension p.1.length)))
      | none =>
        if config.Oversteps then
          ∃ fault, ended = .error (.refused (.engine (.invalidRequest fault)))
        else
          Sound space settings last.optimizer ∧
          (last.optimizer.ledger.entries = [] ↔ o.ledger.isEmpty = true ∧
            ∀ call ∈ seeds.flatMap Trial.calls ++ later, call.2.isFailure = true) ∧
          (ended = .ok () ∨
            (ended = .error (.refused (.engine (.surrogate
                (.notPositiveDefinite last.optimizer.count)))) ∧ Unfit last.optimizer)) := by
  obtain ⟨halt, hseeds, rfl⟩ | ⟨middle, hseeds, hrounds⟩ := Progress.seedsAndRounds_cases h
  · obtain ⟨seeds, hcandidates, hcomplete, hcalls, hresult⟩ :=
      Progress.exists_trials_of_policy hpolicy hseeds
    rw [ho.reached.space_eq] at hresult
    refine ⟨seeds, [], hcandidates, hcomplete, ?_, ?_⟩
    · rw [List.append_nil]
      exact hcalls.record
    · split at hresult
      · exact hresult.1
      · cases hresult.1
  · obtain ⟨seeds, hcandidates, hcomplete, hcalls, hresult⟩ :=
      Progress.exists_trials_of_policy hpolicy hseeds
    rw [ho.reached.space_eq] at hresult
    split at hresult
    · cases hresult.1
    next hfind =>
    have hdimension : ∀ p ∈ seeds.filterMap Trial.evaluated?, p.1.length = space.dimension := by
      simpa using List.find?_eq_none.mp hfind
    have hmiddle : Sound space settings middle.optimizer := by
      rw [hresult.2]
      exact ho.recorded hdimension
    by_cases hoversteps : config.Oversteps
    · obtain ⟨fault, hfault⟩ := exists_rounds_of_oversteps hoversteps middle
      cases hrounds.symm.trans hfault
      refine ⟨seeds, [], hcandidates, hcomplete, ?_, ?_⟩
      · rw [List.append_nil]
        exact hcalls.record
      · rw [hfind]
        simp only [if_pos hoversteps]
        exact ⟨fault, rfl⟩
    · obtain ⟨trials, hlater, hlaterCalls, hentries, hlast, hended⟩ :=
        hmiddle.exists_trials_of_rounds hwidths hpolicy (proper_of_not_oversteps hoversteps) hrounds
      refine ⟨seeds, trials.flatMap Trial.calls, hcandidates, hcomplete, ?_, ?_⟩
      · exact (hcalls.trans hlaterCalls).record
      · rw [hfind]
        simp only [if_neg hoversteps]
        refine ⟨hlast, ?_, hended⟩
        rw [hentries, hresult.2, entries_recorded, observations_filterMap, List.append_eq_nil_iff,
          List.append_eq_nil_iff, observations_eq_nil_iff hcomplete, observations_eq_nil_iff hlater,
          List.forall_mem_append, and_assoc, Ledger.isEmpty, List.isEmpty_iff]

/-- How a run ends that is not ended for a failed call:
if a seed that got a value is not a point of the space's dimension, with the length of the first such seed;
else if there are rounds and the batch size is out of range, with an invalid request;
else if nothing had been observed before and every call failed, without observations;
else with an outcome, unless the model cannot be fit on what has been observed. -/
def Verdict (space : Space Double) (config : RunConfig) (o : Optimizer GaussianProcess)
    (seeds : List Trial) (calls : List (Candidate × Evaluation)) (next : Optimizer GaussianProcess)
    (r : Except (Halt RunError) RunOutcome) : Prop :=
  match (seeds.filterMap Trial.evaluated?).find? fun p => p.1.length != space.dimension with
  | some p => r = .error (.refused (.engine (.shapeMismatch space.dimension p.1.length)))
  | none =>
    if config.Oversteps then ∃ fault, r = .error (.refused (.engine (.invalidRequest fault)))
    else if o.ledger.isEmpty = true ∧ ∀ call ∈ calls, call.2.isFailure = true then
      r = .error (.refused (.engine .noObservations))
    else
      (r = .error (.refused (.engine (.surrogate (.notPositiveDefinite next.count)))) ∧ next.Unfit) ∨
        ∃ outcome, r = .ok outcome

/-- A value that is not finite is never observed. -/
theorem Verdict.ne_nonFiniteValue {seeds : List Trial} {calls : List (Candidate × Evaluation)}
    {next : Optimizer GaussianProcess} {r : Except (Halt RunError) RunOutcome}
    (h : Verdict space config o seeds calls next r) (index : ℕ) (value : Float) :
    r ≠ .error (.refused (.engine (.nonFiniteValue index value))) := by
  rintro rfl
  rw [Verdict] at h
  split at h
  · cases h
  split at h
  · obtain ⟨_, hfault⟩ := h
    cases hfault
  split at h
  · cases h
  · obtain ⟨hfault, -⟩ | ⟨_, hok⟩ := h
    · cases hfault
    · cases hok

theorem exists_verdict_of_run (ho : Sound space settings o) (hwidths : space.HasFiniteWidths)
    (hpolicy : config.policy ≠ .abort) {first e' : ε} {next : Optimizer GaussianProcess}
    {calls : List (Candidate × Evaluation)} {r : Except (Halt RunError) RunOutcome}
    (h : run config o (⟨first, []⟩ : RecordedEvaluator ε) = (r, next, ⟨e', calls⟩)) :
    ∃ seeds : List Trial, seeds.map Trial.candidate = config.seeds ∧
      (∀ t ∈ seeds, t.Complete config.policy.attempts) ∧ seeds.flatMap Trial.calls <+: calls ∧
      Verdict space config o seeds calls next r := by
  obtain ⟨ended, last, hended, rfl, hevaluator, hr⟩ := run_cases h
  obtain ⟨seeds, later, hcandidates, hcomplete, hcalls, hverdict⟩ :=
    exists_seeds_of_seedsAndRounds ho hwidths hpolicy hended
  obtain rfl : calls = seeds.flatMap Trial.calls ++ later := by
    rw [hevaluator] at hcalls
    exact hcalls
  have hearly : ∀ {halt}, ended = .error halt → r = .error halt := by
    intro halt hhalt
    obtain ⟨other, rfl, rfl⟩ | ⟨rfl, -⟩ := hr
    · exact congrArg Except.error (Except.error.inj hhalt)
    · cases hhalt
  refine ⟨seeds, hcandidates, hcomplete, List.prefix_append _ _, ?_⟩
  rw [Verdict]
  split at hverdict
  · exact hearly hverdict
  split at hverdict
  · next hoversteps =>
    obtain ⟨fault, hfault⟩ := hverdict
    rw [if_pos hoversteps]
    exact ⟨fault, hearly hfault⟩
  next hoversteps =>
  obtain ⟨hlast, hentries, hended'⟩ := hverdict
  rw [if_neg hoversteps]
  obtain ⟨hempty, hnone⟩ | ⟨hne, outcome, houtcome⟩ := hlast.reached.outcome_cases config
  · rw [if_pos (hentries.mp hempty)]
    obtain rfl | ⟨-, hunfit⟩ := hended'
    · obtain ⟨_, hok, -⟩ | ⟨-, rfl⟩ := hr
      · cases hok
      · rw [hnone]
        rfl
    · exact absurd hempty hunfit.observed
  · rw [if_neg fun hcondition => hne (hentries.mpr hcondition)]
    obtain rfl | ⟨hfault, hunfit⟩ := hended'
    · obtain ⟨_, hok, -⟩ | ⟨-, rfl⟩ := hr
      · cases hok
      · rw [houtcome]
        exact Or.inr ⟨outcome, rfl⟩
    · exact Or.inl ⟨hearly hfault, hunfit⟩

/-- How a run with a Gaussian process ends that is not ended for a failed call, in a space of finite widths and
from any state of a search. A value that is not finite is never observed. And with whichever model and policy,
what is evaluated in a round is never refused. -/
theorem run_verdict (space : Space Double) (gp : GaussianProcess) (settings : OptimizerConfig)
    (history : List Call) (hwidths : space.HasFiniteWidths) (hpolicy : config.policy ≠ .abort)
    {e e' : ε} {next : Optimizer GaussianProcess} {r : Except (Halt RunError) RunOutcome}
    (h : run config ((start space gp settings).after history) e = (r, next, e')) :
    (∃ (calls : List (Candidate × Evaluation)) (seeds : List Trial),
      run config ((start space gp settings).after history) (⟨e, []⟩ : RecordedEvaluator ε) =
        (r, next, ⟨e', calls⟩) ∧
      seeds.map Trial.candidate = config.seeds ∧ (∀ t ∈ seeds, t.Complete config.policy.attempts) ∧
      seeds.flatMap Trial.calls <+: calls ∧
      Verdict space config ((start space gp settings).after history) seeds calls next r) ∧
    (∀ index value, r ≠ .error (.refused (.engine (.nonFiniteValue index value)))) ∧
    ∀ {σ : Type} [Surrogate σ] (other : Space Double) (s : σ) (settings' : OptimizerConfig)
      (history' : List Call) (config' : RunConfig) (n : ℕ) (p : Progress σ ε),
      Progress.Follows config' ((start other s settings').after history') e n p →
        p.Accepts config' := by
  obtain ⟨calls, hrecorded⟩ := RecordedEvaluator.exists_run h
  obtain ⟨seeds, hcandidates, hcomplete, hcalls, hverdict⟩ :=
    exists_verdict_of_run (Sound.after space gp settings history) hwidths hpolicy hrecorded
  refine ⟨⟨calls, seeds, hrecorded, hcandidates, hcomplete, hcalls, hverdict⟩,
    hverdict.ne_nonFiniteValue, ?_⟩
  intro σ _ other s settings' history' config' n p hfollows
  exact hfollows.accepts (reached_after other s settings' history')

end Run

/-! ### A run whose evaluator never gets ready -/

def hopelessConfig : RunConfig :=
  { RunConfig.standard with
    iterations := 1
    batchSize := 2
    policy := .retry 2 }

def hopelessStart : Optimizer GaussianProcess :=
  .start pointSpace (.ofConfig .standard) .standard

/-- All calls for the first batch fail, so the run has no observation to report. -/
theorem hopelessRun_verdict :
    (run hopelessConfig hopelessStart (⟨4⟩ : SlowStarter)).1 =
      .error (.refused (.engine .noObservations)) := by
  have hfailed : ∀ call ∈ (run hopelessConfig hopelessStart
      (⟨⟨4⟩, []⟩ : RecordedEvaluator SlowStarter)).2.2.calls, call.2.isFailure = true := by
    decide
  rcases hrun : run hopelessConfig hopelessStart (⟨4⟩ : SlowStarter) with ⟨r, next, e'⟩
  obtain ⟨⟨calls, seeds, hrecorded, hseeds, -, -, hverdict⟩, -⟩ :=
    run_verdict pointSpace (.ofConfig .standard) .standard [] (by decide) (by decide) hrun
  obtain rfl : seeds = [] := List.map_eq_nil_iff.mp hseeds
  have hcalls : run hopelessConfig hopelessStart (⟨⟨4⟩, []⟩ : RecordedEvaluator SlowStarter) =
      (r, next, ⟨e', calls⟩) := hrecorded
  rw [hcalls] at hfailed
  rw [Verdict, List.filterMap_nil, List.find?_nil] at hverdict
  simp only at hverdict
  rwa [if_neg (by decide), if_pos ⟨rfl, hfailed⟩] at hverdict

end DelayTuning
