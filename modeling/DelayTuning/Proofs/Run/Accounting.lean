import DelayTuning.Proofs.Optimizer.Batch
import DelayTuning.Proofs.Run.Loops
import DelayTuning.Proofs.Run.Recorded

/-!
# What a run has called, counted and recorded

A run with an outcome is a list of complete trials: one for each seed, then one for each candidate of each
round, in order. The calls of the evaluator, the tally and the growth of the ledger are all read off this
list. The proof follows the loops from the inside out: a call, an attempt, a batch, a round, the run; each
adds its calls to the record and counts them.

## Main definitions

- `Session.Advances`: the calls between two sessions, on record and counted
- `Optimizer.Learns`, `Rounds`: what a list of trials does to an optimizer

## Main statements

- `Session.exists_trial_of_attempt`, `Session.exists_trials_of_evaluateBatch`,
  `Progress.exists_rounds`: the trials behind each loop
- `run_accounts`: the whole run
-/

namespace DelayTuning

variable {σ ε : Type} [Surrogate σ] [Evaluator ε]

/-! ### Calls, attempts and batches -/

namespace Session

/-- The calls between two sessions of a run: they are added to the record, and they are counted. -/
structure Advances (s next : Session (RecordedEvaluator ε)) (calls : List (Candidate × Evaluation)) :
    Prop where
  record : next.evaluator.calls = s.evaluator.calls ++ calls
  evaluations : next.tally.evaluations = s.tally.evaluations + calls.length
  failures : next.tally.failures =
    s.tally.failures + calls.countP fun call => call.2.isFailure

variable {s middle next : Session (RecordedEvaluator ε)} {config : RunConfig}

omit [Evaluator ε] in
theorem Advances.refl (s : Session (RecordedEvaluator ε)) : Advances s s [] :=
  ⟨by simp, rfl, rfl⟩

omit [Evaluator ε] in
theorem Advances.trans {first second : List (Candidate × Evaluation)}
    (h : Advances s middle first) (h' : Advances middle next second) :
    Advances s next (first ++ second) := by
  refine ⟨?_, ?_, ?_⟩
  · rw [h'.record, h.record, List.append_assoc]
  · rw [h'.evaluations, h.evaluations, List.length_append, Nat.add_assoc]
  · rw [h'.failures, h.failures, List.countP_append, Nat.add_assoc]

/-- A call is recorded with its answer, and it is counted as what the answer comes to. -/
theorem exists_usableValue_of_call {candidate : Candidate} {r : Except EvaluationFailure Float}
    (h : s.call candidate = (r, next)) :
    ∃ answer : Evaluation, r = usableValue answer ∧ Advances s next [(candidate, answer)] := by
  rw [call_eq, RecordedEvaluator.evaluate_eq] at h
  generalize Evaluator.evaluate s.evaluator.evaluator candidate = result at h
  obtain ⟨answer, e⟩ := result
  cases h
  refine ⟨answer, rfl, rfl, ?_, ?_⟩
  · by_cases hfailed : Evaluation.isFailure answer = true
    · simp only [hfailed, if_true, Tally.fail, List.length_singleton]
    · simp only [hfailed, Bool.false_eq_true, if_false, Tally.succeed, List.length_singleton]
  · by_cases hfailed : Evaluation.isFailure answer = true
    · simp [hfailed, Tally.fail]
    · simp [hfailed, Tally.succeed]

theorem exists_answer_of_call {candidate : Candidate} {r : Except EvaluationFailure Float}
    (h : s.call candidate = (r, next)) :
    ∃ answer : Evaluation, answer.finiteValue? = r.toOption ∧
      Advances s next [(candidate, answer)] := by
  obtain ⟨answer, rfl, hcall⟩ := exists_usableValue_of_call h
  exact ⟨answer, answer.toOption_usableValue.symm, hcall⟩

theorem exists_trial_of_attempt {extra : Nat} {candidate : Candidate}
    {r : Except EvaluationFailure Float} (h : attempt extra s candidate = (r, next)) :
    ∃ t : Trial, t.candidate = candidate ∧ t.Complete (extra + 1) ∧ t.value? = r.toOption ∧
      Advances s next t.calls := by
  induction extra generalizing s with
  | zero =>
    obtain ⟨answer, hanswer, hcall⟩ := exists_answer_of_call h
    exact ⟨⟨candidate, [answer]⟩, rfl, Trial.complete_once candidate answer, hanswer, hcall⟩
  | succ extra ih =>
    rw [attempt] at h
    rcases hfirst : s.call candidate with ⟨failure | value, middle⟩
    · -- the failed first call goes in front of the trial that the other attempts are
      rw [hfirst] at h
      obtain ⟨answer, hanswer, hcall⟩ := exists_answer_of_call hfirst
      obtain ⟨⟨_, answers⟩, rfl, hcomplete, hvalue, hcalls⟩ := ih h
      have hfailed := (Evaluation.finiteValue?_eq_none_iff answer).mp hanswer
      refine ⟨⟨_, answer :: answers⟩, rfl, hcomplete.again hfailed, ?_, hcall.trans hcalls⟩
      rw [Trial.value?_cons _ answer hcomplete.nonempty, hvalue]
    · rw [hfirst] at h
      cases h
      obtain ⟨answer, hanswer, hcall⟩ := exists_answer_of_call hfirst
      exact ⟨⟨candidate, [answer]⟩, rfl, Trial.complete_of_value hanswer (extra + 1), hanswer,
        hcall⟩

/-- A batch that is evaluated is a list of complete trials, and the candidates with a value are kept. -/
theorem exists_trials_of_evaluateBatch {batch : List Candidate}
    {evaluated : List (Candidate × Float)}
    (h : evaluateBatch config batch s = (.ok evaluated, next)) :
    ∃ trials : List Trial, trials.map Trial.candidate = batch ∧
      (∀ t ∈ trials, t.Complete config.policy.attempts) ∧
      trials.filterMap Trial.evaluated? = evaluated ∧
      Advances s next (trials.flatMap Trial.calls) := by
  induction batch generalizing s evaluated with
  | nil =>
    cases h
    exact ⟨[], rfl, by simp, rfl, Advances.refl _⟩
  | cons candidate rest ih =>
    obtain ⟨r, middle, kept, hattempt, hrest, rfl⟩ := exists_attempt_of_evaluateBatch h
    obtain ⟨t, rfl, hcomplete, hvalue, hcalls⟩ := exists_trial_of_attempt hattempt
    obtain ⟨trials, rfl, htrials, rfl, hrestCalls⟩ := ih hrest
    rw [FailurePolicy.extraAttempts_add_one] at hcomplete
    refine ⟨t :: trials, rfl, List.forall_mem_cons.mpr ⟨hcomplete, htrials⟩, ?_,
      hcalls.trans hrestCalls⟩
    rw [filterMap_evaluated?_cons, Trial.evaluated?, hvalue]

end Session

/-! ### Rounds -/

/-- The optimizer observes the candidates that got a value, with their values, in the order of the
    trials. -/
def Optimizer.Learns (o : Optimizer σ) (trials : List Trial) (next : Optimizer σ) : Prop :=
  o.observe ((trials.filterMap Trial.evaluated?).map Prod.fst)
    ((trials.filterMap Trial.evaluated?).map Prod.snd) = (.ok (), next)

theorem Optimizer.observations_filterMap (trials : List Trial) :
    observations (trials.filterMap Trial.evaluated?) = trials.filterMap Trial.observation? := by
  induction trials with
  | nil => rfl
  | cons t rest ih =>
    rw [observations] at ih ⊢
    cases hvalue : t.value? with
    | none => simpa [Trial.evaluated?, Trial.observation?, hvalue] using ih
    | some value => simpa [Trial.evaluated?, Trial.observation?, hvalue] using ih

omit [Surrogate σ] in
theorem Optimizer.Learns.entries {o next : Optimizer σ} {trials : List Trial}
    (h : o.Learns trials next) :
    next.ledger.entries = o.ledger.entries ++ trials.filterMap Trial.observation? := by
  have hzip : ((trials.filterMap Trial.evaluated?).map Prod.fst).zip
      ((trials.filterMap Trial.evaluated?).map Prod.snd) = trials.filterMap Trial.evaluated? :=
    (List.zip_of_prod rfl rfl).symm
  cases observes_of_observe h with
  | recorded => rw [entries_recorded, hzip, observations_filterMap]

/-- A number of rounds, each a batch of the size of the configuration that is suggested, tried and
    learned. -/
inductive Rounds (config : RunConfig) : Nat → Optimizer σ → List Trial → Optimizer σ → Prop
  | done (o : Optimizer σ) : Rounds config 0 o [] o
  | round {n : Nat} {o asked told last : Optimizer σ} {trials later : List Trial}
    (hsuggest : o.suggest config.batchSize = (.ok (trials.map Trial.candidate), asked))
    (hlearn : asked.Learns trials told) (hrest : Rounds config n told later last) :
    Rounds config (n + 1) o (trials ++ later) last

namespace Rounds

variable {config : RunConfig} {n : Nat} {o last : Optimizer σ} {trials : List Trial}

/-- Every round has as many trials as the batch has candidates. -/
theorem length_eq (h : Rounds config n o trials last) :
    trials.length = n * config.batchSize := by
  induction h with
  | done => exact (Nat.zero_mul _).symm
  | round hsuggest _ _ ih =>
    have hbatch := Optimizer.length_of_suggest hsuggest
    rw [List.length_map] at hbatch
    rw [List.length_append, hbatch, ih, Nat.succ_mul, Nat.add_comm]

theorem entries (h : Rounds config n o trials last) :
    last.ledger.entries = o.ledger.entries ++ trials.filterMap Trial.observation? := by
  induction h with
  | done => exact (List.append_nil _).symm
  | round hsuggest hlearn _ ih =>
    rw [ih, hlearn.entries, Optimizer.ledger_of_suggest hsuggest, List.filterMap_append,
      List.append_assoc]

end Rounds

namespace Progress

variable {config : RunConfig} {p next : Progress σ (RecordedEvaluator ε)}

omit [Surrogate σ] in
/-- A batch that is evaluated and observed is a list of complete trials that the optimizer learns. -/
theorem exists_trials_of_evaluateAndObserve {batch : List Candidate}
    (h : p.evaluateAndObserve config batch = (.ok (), next)) :
    ∃ trials : List Trial, trials.map Trial.candidate = batch ∧
      (∀ t ∈ trials, t.Complete config.policy.attempts) ∧
      p.optimizer.Learns trials next.optimizer ∧
      p.session.Advances next.session (trials.flatMap Trial.calls) := by
  obtain ⟨_, -, -, herror⟩ | ⟨evaluated, result, hbatch, hobserve, hok⟩ := evaluateAndObserve_cases h
  · cases herror
  · obtain ⟨trials, hcandidates, hcomplete, rfl, hcalls⟩ :=
      Session.exists_trials_of_evaluateBatch hbatch
    cases result with
    | error e => cases hok
    | ok _ => exact ⟨trials, hcandidates, hcomplete, hobserve, hcalls⟩

/-- A round is a batch that is suggested, tried and learned. -/
theorem exists_trials_of_round (h : p.round config = (.ok (), next)) :
    ∃ asked trials, p.optimizer.suggest config.batchSize =
        (.ok (trials.map Trial.candidate), asked) ∧
      (∀ t ∈ trials, t.Complete config.policy.attempts) ∧
      asked.Learns trials next.optimizer ∧
      p.session.Advances next.session (trials.flatMap Trial.calls) := by
  obtain ⟨_, -, -, herror⟩ | ⟨batch, asked, hsuggest, hbatch⟩ := round_cases h
  · cases herror
  · obtain ⟨trials, rfl, htrials⟩ := exists_trials_of_evaluateAndObserve hbatch
    exact ⟨asked, trials, hsuggest, htrials⟩

theorem exists_rounds {n : Nat} (h : p.rounds config n = (.ok (), next)) :
    ∃ trials, Rounds config n p.optimizer trials next.optimizer ∧
      (∀ t ∈ trials, t.Complete config.policy.attempts) ∧
      p.session.Advances next.session (trials.flatMap Trial.calls) := by
  induction n generalizing p with
  | zero =>
    cases h
    exact ⟨[], .done _, by simp, .refl _⟩
  | succ n ih =>
    obtain ⟨_, -, herror⟩ | ⟨middle, hround, hrest⟩ := rounds_succ_cases h
    · cases herror
    · obtain ⟨asked, trials, hsuggest, hcomplete, hlearn, hcalls⟩ := exists_trials_of_round hround
      obtain ⟨later, hrounds, hlater, hlaterCalls⟩ := ih hrest
      refine ⟨trials ++ later, .round hsuggest hlearn hrounds, ?_, ?_⟩
      · exact List.forall_mem_append.mpr ⟨hcomplete, hlater⟩
      · rw [List.flatMap_append]
        exact hcalls.trans hlaterCalls

end Progress

/-! ### The whole run -/

/-- A run with an outcome has gone through its seeds and all its rounds. -/
theorem exists_progress_of_run {config : RunConfig} {o next : Optimizer σ} {e e' : ε}
    {outcome : RunOutcome} (h : run config o e = (.ok outcome, next, e')) :
    ∃ p last : Progress σ ε,
      Progress.evaluateAndObserve config ⟨o, e, .zero⟩ config.seeds = (.ok (), p) ∧
      p.rounds config config.iterations = (.ok (), last) ∧
      last.optimizer = next ∧ last.session.evaluator = e' ∧
      outcome.evaluations = last.session.tally.evaluations ∧
      outcome.failures = last.session.tally.failures := by
  obtain ⟨ended, last, hended, rfl, rfl, ⟨_, -, herror⟩ | ⟨rfl, houtcome⟩⟩ := run_cases h
  · cases herror
  obtain ⟨_, -, herror⟩ | ⟨p, hseeds, hrounds⟩ := Progress.seedsAndRounds_cases hended
  · cases herror
  refine ⟨p, last, hseeds, hrounds, rfl, rfl, ?_⟩
  rw [RunOutcome.ofProgress] at houtcome
  cases hbest : last.optimizer.best with
  | error e =>
    rw [hbest] at houtcome
    cases houtcome
  | ok best =>
    rw [hbest] at houtcome
    cases houtcome
    exact ⟨rfl, rfl⟩

/-- Whatever the model and the evaluator do, a run with an outcome is one trial for each seed and then, in
    each round, one for each candidate of the suggested batch.
    Each trial stops at the first finite value or after the attempts of the policy; its calls, one after
    the other, are what the evaluator receives, and the ledger grows by the trials with a value.
    The outcome counts the calls and the failed ones; the others are the growth of the ledger, and there
    are at least as many calls as candidates and at most as many as attempts at all of them. -/
theorem run_accounts {config : RunConfig} {o next : Optimizer σ} {e e' : ε} {outcome : RunOutcome}
    (h : run config o e = (.ok outcome, next, e')) :
    ∃ calls seeds told trials,
      run config o (⟨e, []⟩ : RecordedEvaluator ε) = (.ok outcome, next, ⟨e', calls⟩) ∧
      seeds.map Trial.candidate = config.seeds ∧ o.Learns seeds told ∧
      Rounds config config.iterations told trials next ∧
      (∀ t ∈ seeds ++ trials, t.Complete config.policy.attempts) ∧
      calls = (seeds ++ trials).flatMap Trial.calls ∧
      next.ledger.entries =
        o.ledger.entries ++ (seeds ++ trials).filterMap Trial.observation? ∧
      outcome.evaluations = calls.length ∧
      outcome.failures = calls.countP (fun call => call.2.isFailure) ∧
      outcome.failures ≤ outcome.evaluations ∧
      next.count = o.count + (outcome.evaluations - outcome.failures) ∧
      (seeds ++ trials).length = config.seeds.length + config.iterations * config.batchSize ∧
      config.seeds.length + config.iterations * config.batchSize ≤ outcome.evaluations ∧
      outcome.evaluations ≤ config.policy.attempts *
        (config.seeds.length + config.iterations * config.batchSize) := by
  obtain ⟨calls, hrecorded⟩ := RecordedEvaluator.exists_run h
  obtain ⟨p, last, hseeds, hrounds, rfl, hevaluator, hevaluations, hfailures⟩ :=
    exists_progress_of_run hrecorded
  obtain ⟨seeds, hcandidates, hseedsComplete, hlearn, hseedCalls⟩ :=
    Progress.exists_trials_of_evaluateAndObserve hseeds
  obtain ⟨trials, hround, hcomplete, hcalls⟩ := Progress.exists_rounds hrounds
  have hall : ∀ t ∈ seeds ++ trials, t.Complete config.policy.attempts :=
    List.forall_mem_append.mpr ⟨hseedsComplete, hcomplete⟩
  have hadvances := hseedCalls.trans hcalls
  rw [← List.flatMap_append] at hadvances
  have hrecord : calls = (seeds ++ trials).flatMap Trial.calls := by
    simpa [hevaluator] using hadvances.record
  have hlength : (seeds ++ trials).length =
      config.seeds.length + config.iterations * config.batchSize := by
    rw [List.length_append, hround.length_eq, ← hcandidates, List.length_map]
  have hentries : last.optimizer.ledger.entries =
      o.ledger.entries ++ (seeds ++ trials).filterMap Trial.observation? := by
    rw [hround.entries, hlearn.entries, List.filterMap_append, List.append_assoc]
  have htotal : outcome.evaluations = calls.length := by
    rw [hevaluations, hadvances.evaluations, hrecord]
    exact Nat.zero_add _
  have hfailed : outcome.failures = calls.countP fun call => call.2.isFailure := by
    rw [hfailures, hadvances.failures, hrecord]
    exact Nat.zero_add _
  -- the calls that did not fail are the candidates with a value
  have hsplit := length_flatMap_calls hall
  have hgrowth : last.optimizer.count =
      o.count + ((seeds ++ trials).filterMap Trial.evaluated?).length := by
    rw [Optimizer.count, Optimizer.count, Ledger.count, Ledger.count, hentries, List.length_append,
      ← Optimizer.observations_filterMap, Optimizer.observations, List.length_map]
  have hlower := length_le_length_flatMap_calls hall
  have hupper := length_flatMap_calls_le hall
  rw [← hrecord] at hsplit hlower hupper
  rw [hlength] at hlower hupper
  rw [← htotal, ← hfailed] at hsplit
  refine ⟨calls, seeds, p.optimizer, trials, hrecorded, hcandidates, hlearn, hround, hall, hrecord,
    hentries, htotal, hfailed, by omega, by omega, hlength, ?_, ?_⟩
  · rw [htotal]
    exact hlower
  · rw [htotal]
    exact hupper

/-! ### A run whose evaluator fails at first -/

/-- An evaluator that fails a number of times before it has values. -/
structure SlowStarter where
  failuresLeft : Nat

instance instEvaluatorSlowStarter : Evaluator SlowStarter where
  evaluate e _ :=
    match e.failuresLeft with
    | 0 => (.ok 1.0, e)
    | n + 1 => (.error ⟨.toolCrash, "not ready"⟩, ⟨n⟩)

/-- One seed, one round with a batch of two, and two attempts at each candidate. -/
def slowConfig : RunConfig :=
  { RunConfig.standard with
    iterations := 1
    batchSize := 2
    seeds := [[0.5]]
    policy := .retry 2 }

/-- A run whose seed is given up after two attempts. -/
def slowRun : Except (Halt RunError) RunOutcome × Optimizer IndifferentModel × SlowStarter :=
  run slowConfig Optimizer.pointSearch ⟨2⟩

/-- Two calls for the seed, one for each candidate of the round. -/
def slowCalls : List (Candidate × Evaluation) :=
  [([0.5], .error ⟨.toolCrash, "not ready"⟩), ([0.5], .error ⟨.toolCrash, "not ready"⟩),
    ([0.5], .ok 1.0), ([0.5], .ok 1.0)]

/-- It has an outcome, and the accounts are in order: the seed is dropped, and the ledger has the others. -/
theorem slowRun_accounts :
    ∃ outcome next e', slowRun = (.ok outcome, next, e') ∧
      run slowConfig Optimizer.pointSearch (⟨⟨2⟩, []⟩ : RecordedEvaluator SlowStarter) =
        (.ok outcome, next, ⟨e', slowCalls⟩) ∧
      (∃ trials : List Trial, (∀ t ∈ trials, t.Complete 2) ∧ trials.length = 3 ∧
        slowCalls = trials.flatMap Trial.calls ∧
        next.ledger.entries = trials.filterMap Trial.observation?) ∧
      next.ledger.entries = [⟨[0.5], 1.0⟩, ⟨[0.5], 1.0⟩] ∧
      outcome.evaluations = 4 ∧ outcome.failures = 2 ∧ next.count = 2 := by
  have hok : slowRun.1.isOk = true := by decide +kernel
  have hentries : slowRun.2.1.ledger.entries = [⟨[0.5], 1.0⟩, ⟨[0.5], 1.0⟩] := by decide +kernel
  have hcalls : (run slowConfig Optimizer.pointSearch
      (⟨⟨2⟩, []⟩ : RecordedEvaluator SlowStarter)).2.2.calls = slowCalls := by
    decide +kernel
  rcases hrun : slowRun with ⟨e | outcome, next, e'⟩
  · rw [hrun] at hok
    cases hok
  · obtain ⟨calls, seeds, _, trials, hrecorded, -, -, -, hcomplete, htrials, hledger, hevaluations,
      hfailures, -, hgrowth, hlength, -, -⟩ := run_accounts hrun
    rw [hrun] at hentries
    obtain rfl : calls = slowCalls := by rw [← hcalls, hrecorded]
    refine ⟨outcome, next, e', rfl, hrecorded, ⟨seeds ++ trials, hcomplete, hlength, htrials, hledger⟩,
      hentries, hevaluations, hfailures, ?_⟩
    rw [hgrowth, hevaluations, hfailures]
    rfl

end DelayTuning
