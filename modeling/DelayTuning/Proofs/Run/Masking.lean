import DelayTuning.Proofs.Run.Course

/-!
# Retries mask failures

An evaluator that gives the values of an objective but fails now and then, never so often in a row as a candidate
is tried, leads to the same run as the objective itself: the same batches, the same optimizer in the end, the same
outcome up to the calls that failed. The proof is a simulation. The two runs go side by side with the same
optimizer, and the record of the one is that of the other without the failed calls.

## Main definitions

- `PureObjective`: an objective without state whose values are finite
- `Transient`: calls that give the values of an objective or fail, but not too many of them in a row
- `Masks`: the simulation relation

## Main statements

- `Masks.exists_evaluateAndObserve`, `Masks.exists_rounds`: each loop keeps the relation
- `run_masks`: the whole run
-/

namespace DelayTuning

/-- An objective without state, all of whose values are finite. -/
structure PureObjective where
  value : Candidate → Float
  isFinite : ∀ candidate, (value candidate).isFinite = true

instance instEvaluatorPureObjective : Evaluator PureObjective where
  evaluate f candidate := (.ok (f.value candidate), f)

/-- The call in which the objective gives its value. -/
def PureObjective.call (f : PureObjective) (candidate : Candidate) : Candidate × Evaluation :=
  (candidate, .ok (f.value candidate))

theorem PureObjective.isFailure_call (f : PureObjective) (candidate : Candidate) :
    (f.call candidate).2.isFailure = false := by
  simp [call, Evaluation.isFailure, f.isFinite]

/-- The calls that have not failed. -/
def successful (calls : List (Candidate × Evaluation)) : List (Candidate × Evaluation) :=
  calls.filter fun call => !call.2.isFailure

@[simp]
theorem successful_append (calls later : List (Candidate × Evaluation)) :
    successful (calls ++ later) = successful calls ++ successful later :=
  List.filter_append _ _

/-- Every call gives the value of the objective or fails, and of any `limit` calls in a row one does not fail. -/
structure Transient (f : PureObjective) (limit : ℕ) (calls : List (Candidate × Evaluation)) : Prop where
  agrees : ∀ call ∈ calls, call.2.isFailure = true ∨ call.2 = .ok (f.value call.1)
  recovers : ∀ row, row <:+: calls → row.length = limit → ∃ call ∈ row, call.2.isFailure = false

section Transient

variable {f : PureObjective} {limit : ℕ} {calls : List (Candidate × Evaluation)}

theorem Transient.of_infix (h : Transient f limit calls) {part : List (Candidate × Evaluation)}
    (hpart : part <:+: calls) : Transient f limit part :=
  ⟨fun call hmem => h.agrees call (hpart.subset hmem),
    fun row hrow => h.recovers row (hrow.trans hpart)⟩

/-- It is enough to look at the first calls of every rest of the record. -/
theorem transient_iff : Transient f limit calls ↔
    (∀ call ∈ calls, call.2.isFailure = true ∨ call.2 = .ok (f.value call.1)) ∧
      ∀ rest ∈ calls.tails, limit ≤ rest.length →
        ∃ call ∈ rest.take limit, call.2.isFailure = false := by
  constructor
  · intro h
    refine ⟨h.agrees, ?_⟩
    intro rest hrest hlength
    refine h.recovers (rest.take limit) ?_ (List.length_take_of_le hlength)
    exact (List.take_prefix limit rest).isInfix.trans ((List.mem_tails _ _).mp hrest).isInfix
  · rintro ⟨hagrees, hrecovers⟩
    refine ⟨hagrees, ?_⟩
    rintro row ⟨earlier, later, rfl⟩ rfl
    have hmem : row ++ later ∈ (earlier ++ row ++ later).tails := by
      rw [List.mem_tails, List.append_assoc]
      exact List.suffix_append _ _
    have hrow := hrecovers (row ++ later) hmem (by simp)
    rwa [List.take_left] at hrow

instance instDecidableTransient : Decidable (Transient f limit calls) :=
  decidable_of_iff _ transient_iff.symm

end Transient

/-! ### One trial -/

theorem Trial.Complete.recovers {f : PureObjective} {limit : ℕ} {t : Trial} (h : t.Complete limit)
    (htransient : Transient f limit t.calls) :
    t.evaluated? = some (t.candidate, f.value t.candidate) ∧
      successful t.calls = [f.call t.candidate] := by
  obtain ⟨failed, last, hanswers⟩ := (List.eq_nil_or_concat t.answers).resolve_left h.nonempty
  rw [List.concat_eq_append] at hanswers
  have hfailed : ∀ answer ∈ failed, answer.isFailure = true := by
    simpa [hanswers] using h.failed
  have hvalue : t.value? = last.finiteValue? := by simp [value?, hanswers]
  have hlast : last.isFailure = false := by
    -- otherwise the trial was given up after `limit` failures in a row
    by_contra hne
    have hfailure := Bool.eq_true_of_not_eq_false hne
    have hnone := hvalue.trans ((Evaluation.finiteValue?_eq_none_iff last).mpr hfailure)
    have hlength : t.calls.length = limit := by
      rw [calls, List.length_map]
      exact h.exhausted hnone
    obtain ⟨call, hmem, hsuccess⟩ := htransient.recovers t.calls (List.infix_refl _) hlength
    rw [calls, hanswers] at hmem
    obtain ⟨answer, hanswer, rfl⟩ := List.mem_map.mp hmem
    obtain hanswer | hanswer := List.mem_append.mp hanswer
    · rw [hfailed answer hanswer] at hsuccess
      cases hsuccess
    · obtain rfl := List.mem_singleton.mp hanswer
      exact hne hsuccess
  have hok : last = .ok (f.value t.candidate) := by
    have hmem : (t.candidate, last) ∈ t.calls := List.mem_map_of_mem (by simp [hanswers])
    refine (htransient.agrees _ hmem).resolve_left ?_
    rw [hlast]
    exact Bool.false_ne_true
  constructor
  · rw [evaluated?, hvalue, hok, Evaluation.finiteValue?, if_pos (f.isFinite _)]
    rfl
  · have hnone : successful (failed.map fun answer => (t.candidate, answer)) = [] := by
      rw [successful, List.filter_eq_nil_iff]
      intro call hmem
      obtain ⟨answer, hanswer, rfl⟩ := List.mem_map.mp hmem
      simp [hfailed answer hanswer]
    have hsuccess : successful [f.call t.candidate] = [f.call t.candidate] := by
      simp [successful, f.isFailure_call]
    rw [calls, hanswers, List.map_append, successful_append, hnone, hok]
    exact hsuccess

theorem recover_of_complete {f : PureObjective} {limit : ℕ} {trials : List Trial}
    (h : ∀ t ∈ trials, t.Complete limit) (htransient : Transient f limit (trials.flatMap Trial.calls)) :
    trials.filterMap Trial.evaluated? =
        (trials.map Trial.candidate).map (fun candidate => (candidate, f.value candidate)) ∧
      successful (trials.flatMap Trial.calls) = (trials.map Trial.candidate).map f.call := by
  induction trials with
  | nil => exact ⟨rfl, rfl⟩
  | cons t rest ih =>
    rw [List.flatMap_cons] at htransient
    obtain ⟨hevaluated, hcalls⟩ := (h t List.mem_cons_self).recovers
      (htransient.of_infix (List.prefix_append _ _).isInfix)
    obtain ⟨hrest, hrestCalls⟩ := ih (fun u hu => h u (List.mem_cons_of_mem t hu))
      (htransient.of_infix (List.suffix_append _ _).isInfix)
    constructor
    · rw [List.filterMap_cons_some hevaluated, hrest]
      rfl
    · rw [List.flatMap_cons, successful_append, hcalls, hrestCalls]
      rfl

/-! ### One batch -/

namespace Session

variable {ε : Type} [Evaluator ε] {f : PureObjective} {config : RunConfig}

omit [Evaluator ε] in
theorem Advances.unique {s next : Session (RecordedEvaluator ε)}
    {calls other : List (Candidate × Evaluation)} (h : Advances s next calls)
    (h' : Advances s next other) : calls = other :=
  List.append_cancel_left (h.record.symm.trans h'.record)

/-- If the evaluator recovers in time, every candidate has the value of the objective. -/
theorem evaluateBatch_of_transient (hpolicy : config.policy ≠ .abort)
    {s next : Session (RecordedEvaluator ε)} {batch : List Candidate}
    {r : Except RunError (List (Candidate × Float))} (h : evaluateBatch config batch s = (r, next))
    {calls : List (Candidate × Evaluation)} (hcalls : Advances s next calls)
    (htransient : Transient f config.policy.attempts calls) :
    r = .ok (batch.map fun candidate => (candidate, f.value candidate)) ∧
      successful calls = batch.map f.call := by
  obtain ⟨evaluated, last, hok⟩ := exists_evaluateBatch_eq_ok hpolicy batch s
  cases h.symm.trans hok
  obtain ⟨trials, rfl, hcomplete, rfl, hadvances⟩ := exists_trials_of_evaluateBatch h
  obtain rfl := hcalls.unique hadvances
  obtain ⟨hevaluated, hsuccessful⟩ := recover_of_complete hcomplete htransient
  exact ⟨congrArg Except.ok hevaluated, hsuccessful⟩

theorem attempt_pure (extra : ℕ) (s : Session (RecordedEvaluator PureObjective))
    (candidate : Candidate) :
    attempt extra s candidate = (.ok (s.evaluator.evaluator.value candidate),
      ⟨⟨s.evaluator.evaluator, s.evaluator.calls ++ [s.evaluator.evaluator.call candidate]⟩,
        s.tally.succeed⟩) := by
  have hcall : s.call candidate = (.ok (s.evaluator.evaluator.value candidate),
      ⟨⟨s.evaluator.evaluator, s.evaluator.calls ++ [s.evaluator.evaluator.call candidate]⟩,
        s.tally.succeed⟩) := by
    have husable : usableValue (.ok (s.evaluator.evaluator.value candidate)) =
        .ok (s.evaluator.evaluator.value candidate) := if_pos (s.evaluator.evaluator.isFinite candidate)
    have hsuccess : Evaluation.isFailure (.ok (s.evaluator.evaluator.value candidate)) = false :=
      s.evaluator.evaluator.isFailure_call candidate
    rw [call_eq, RecordedEvaluator.evaluate_eq]
    simp only [Evaluator.evaluate, husable, hsuccess, Bool.false_eq_true, if_false]
    rfl
  cases extra with
  | zero => exact hcall
  | succ extra => rw [attempt, hcall]

/-- The objective gives every candidate of a batch its value, with one call each. -/
theorem exists_evaluateBatch_pure (config : RunConfig) (batch : List Candidate)
    (s : Session (RecordedEvaluator PureObjective)) (hs : s.evaluator.evaluator = f) :
    ∃ next, evaluateBatch config batch s =
        (.ok (batch.map fun candidate => (candidate, f.value candidate)), next) ∧
      next.evaluator = ⟨f, s.evaluator.calls ++ batch.map f.call⟩ ∧
      next.tally = ⟨s.tally.evaluations + batch.length, s.tally.failures⟩ := by
  induction batch generalizing s with
  | nil =>
    subst hs
    exact ⟨s, rfl, by simp, rfl⟩
  | cons candidate rest ih =>
    subst hs
    obtain ⟨next, hrest, hevaluator, htally⟩ := ih
      ⟨⟨s.evaluator.evaluator, s.evaluator.calls ++ [s.evaluator.evaluator.call candidate]⟩,
        s.tally.succeed⟩ rfl
    refine ⟨next, ?_, ?_, ?_⟩
    · rw [evaluateBatch, attempt_pure]
      simp only [hrest]
      rfl
    · rw [hevaluator, List.append_assoc]
      rfl
    · rw [htally, Tally.succeed, List.length_cons]
      simp only [Tally.mk.injEq, and_true]
      omega

end Session

/-! ### The simulation -/

variable {σ ε : Type} [Surrogate σ] [Evaluator ε]

/-- A run with failures next to the run of the objective: they have the same optimizer, and the record of the
objective is the other one without the failed calls. -/
structure Masks (f : PureObjective) (p : Progress σ (RecordedEvaluator ε))
    (q : Progress σ (RecordedEvaluator PureObjective)) : Prop where
  optimizer : q.optimizer = p.optimizer
  evaluator : q.session.evaluator = ⟨f, successful p.session.evaluator.calls⟩
  evaluations : p.session.tally.evaluations = q.session.tally.evaluations + p.session.tally.failures
  failures : q.session.tally.failures = 0

omit [Surrogate σ] [Evaluator ε] in
theorem masks_start (f : PureObjective) (o : Optimizer σ) (e : ε) :
    Masks f ⟨o, ⟨(⟨e, []⟩ : RecordedEvaluator ε), .zero⟩⟩ ⟨o, ⟨⟨f, []⟩, .zero⟩⟩ :=
  ⟨rfl, rfl, rfl, rfl⟩

theorem length_eq_length_successful_add (calls : List (Candidate × Evaluation)) :
    calls.length = (successful calls).length + calls.countP fun call => call.2.isFailure := by
  rw [successful, ← List.countP_eq_length_filter, Nat.add_comm,
    List.length_eq_countP_add_countP fun call => call.2.isFailure]
  simp

namespace Masks

variable {f : PureObjective} {config : RunConfig} {p p' : Progress σ (RecordedEvaluator ε)}
  {q : Progress σ (RecordedEvaluator PureObjective)} {r : Except (Halt RunError) Unit}
  {calls : List (Candidate × Evaluation)}

omit [Surrogate σ] in
theorem exists_evaluateAndObserve (h : Masks f p q) (hpolicy : config.policy ≠ .abort)
    {batch : List Candidate} (hrun : p.evaluateAndObserve config batch = (r, p'))
    (hcalls : p.session.Advances p'.session calls)
    (htransient : Transient f config.policy.attempts calls) (policy : FailurePolicy) :
    ∃ q', q.evaluateAndObserve { config with policy := policy } batch = (r, q') ∧ Masks f p' q' := by
  obtain ⟨s, hpure, hevaluator, htally⟩ := Session.exists_evaluateBatch_pure
    { config with policy := policy } batch q.session (congrArg RecordedEvaluator.evaluator h.evaluator)
  obtain ⟨e, hbatch, -⟩ | ⟨evaluated, result, hbatch, hobserve, rfl⟩ :=
    Progress.evaluateAndObserve_cases hrun
  · obtain ⟨herror, -⟩ := Session.evaluateBatch_of_transient hpolicy hbatch hcalls htransient
    cases herror
  obtain ⟨hevaluated, hsuccessful⟩ :=
    Session.evaluateBatch_of_transient hpolicy hbatch hcalls htransient
  cases hevaluated
  refine ⟨⟨p'.optimizer, s⟩, ?_, rfl, ?_, ?_, ?_⟩
  · rw [Progress.evaluateAndObserve, hpure]
    simp only [Progress.observe, h.optimizer, hobserve]
    cases result <;> rfl
  · rw [hevaluator, h.evaluator, hcalls.record, successful_append, hsuccessful]
  · have hlength := length_eq_length_successful_add calls
    rw [hsuccessful, List.length_map] at hlength
    have hevaluations := h.evaluations
    rw [hcalls.evaluations, hcalls.failures, htally, hlength]
    simp only
    omega
  · rw [htally]
    exact h.failures

theorem exists_round (h : Masks f p q) (hpolicy : config.policy ≠ .abort)
    (hrun : p.round config = (r, p')) (hcalls : p.session.Advances p'.session calls)
    (htransient : Transient f config.policy.attempts calls) (policy : FailurePolicy) :
    ∃ q', q.round { config with policy := policy } = (r, q') ∧ Masks f p' q' := by
  obtain ⟨halt, hsuggest, hsession, rfl⟩ | ⟨batch, asked, hsuggest, hbatch⟩ := Progress.round_cases hrun
  · refine ⟨⟨p'.optimizer, q.session⟩, ?_, rfl, ?_, ?_, h.failures⟩
    · rw [Progress.round, h.optimizer, hsuggest]
      cases halt <;> rfl
    · rw [hsession]
      exact h.evaluator
    · rw [hsession]
      exact h.evaluations
  · have hasked : Masks f { p with optimizer := asked } { q with optimizer := asked } :=
      ⟨rfl, h.evaluator, h.evaluations, h.failures⟩
    obtain ⟨q', hpure, hmasks⟩ :=
      hasked.exists_evaluateAndObserve hpolicy hbatch hcalls htransient policy
    refine ⟨q', ?_, hmasks⟩
    rw [Progress.round, h.optimizer, hsuggest]
    exact hpure

/-- The rounds of the two runs suggest the same batches and end in the same way. -/
theorem exists_rounds (h : Masks f p q) (hpolicy : config.policy ≠ .abort) {n : ℕ}
    (hrun : p.rounds config n = (r, p')) (hcalls : p.session.Advances p'.session calls)
    (htransient : Transient f config.policy.attempts calls) (policy : FailurePolicy) :
    q.suggestions { config with policy := policy } n = p.suggestions config n ∧
      ∃ q', q.rounds { config with policy := policy } n = (r, q') ∧ Masks f p' q' := by
  induction n generalizing p q calls with
  | zero =>
    cases hrun
    exact ⟨rfl, q, rfl, h⟩
  | succ n ih =>
    obtain ⟨halt, hround, rfl⟩ | ⟨middle, hround, hrest⟩ := Progress.rounds_succ_cases hrun
    · obtain ⟨q', hpure, hmasks⟩ := h.exists_round hpolicy hround hcalls htransient policy
      refine ⟨?_, q', ?_, hmasks⟩
      · rw [Progress.suggestions, Progress.suggestions, hround, hpure, h.optimizer]
      · rw [Progress.rounds, hpure]
    · obtain ⟨first, hfirst⟩ := Progress.exists_advances_round hround
      obtain ⟨later, hlater⟩ := Progress.exists_advances_rounds hrest
      obtain rfl := hcalls.unique (hfirst.trans hlater)
      obtain ⟨q', hpure, hmasks⟩ := h.exists_round hpolicy hround hfirst
        (htransient.of_infix (List.prefix_append _ _).isInfix) policy
      obtain ⟨hsuggestions, q'', hpures, hmasks'⟩ := ih hmasks hrest hlater
        (htransient.of_infix (List.suffix_append _ _).isInfix)
      refine ⟨?_, q'', ?_, hmasks'⟩
      · rw [Progress.suggestions, Progress.suggestions, hround, hpure, h.optimizer]
        simp only [hsuggestions]
      · rw [Progress.rounds, hpure]
        exact hpures

omit [Surrogate σ] [Evaluator ε] in
/-- The outcomes are the same, except that the objective is not called for the failures. -/
theorem outcome_cases (h : Masks f p q) (config : RunConfig) (policy : FailurePolicy) :
    (∃ e, RunOutcome.ofProgress config p = .error e ∧
      RunOutcome.ofProgress { config with policy := policy } q = .error e) ∨
    ∃ outcome evaluations, RunOutcome.ofProgress config p = .ok outcome ∧
      outcome.evaluations = evaluations + outcome.failures ∧
      RunOutcome.ofProgress { config with policy := policy } q =
        .ok { outcome with evaluations := evaluations, failures := 0 } := by
  rw [RunOutcome.ofProgress, RunOutcome.ofProgress, h.optimizer]
  cases p.optimizer.best with
  | error e => exact Or.inl ⟨e, rfl, rfl⟩
  | ok best =>
    refine Or.inr ⟨_, q.session.tally.evaluations, rfl, h.evaluations, ?_⟩
    simp only [h.failures]

end Masks

/-! ### The whole run -/

theorem exists_masks_seedsAndRounds {f : PureObjective} {config : RunConfig}
    (hpolicy : config.policy ≠ .abort) {o : Optimizer σ} {e : ε} {r : Except (Halt RunError) Unit}
    {last : Progress σ (RecordedEvaluator ε)}
    (hrun : Progress.seedsAndRounds config ⟨o, ⟨⟨e, []⟩, .zero⟩⟩ = (r, last))
    (htransient : Transient f config.policy.attempts last.session.evaluator.calls)
    (policy : FailurePolicy) :
    batches { config with policy := policy } o (⟨f, []⟩ : RecordedEvaluator PureObjective) =
        batches config o (⟨e, []⟩ : RecordedEvaluator ε) ∧
      ∃ q, Progress.seedsAndRounds { config with policy := policy } ⟨o, ⟨⟨f, []⟩, .zero⟩⟩ = (r, q) ∧
        Masks f last q := by
  have hstart := masks_start f o e
  obtain ⟨halt, hseeds, rfl⟩ | ⟨middle, hseeds, hrounds⟩ := Progress.seedsAndRounds_cases hrun
  · obtain ⟨calls, hcalls⟩ := Progress.exists_advances_evaluateAndObserve hseeds
    rw [hcalls.record] at htransient
    obtain ⟨q, hpure, hmasks⟩ := hstart.exists_evaluateAndObserve hpolicy hseeds hcalls htransient policy
    refine ⟨?_, q, ?_, hmasks⟩
    · rw [batches, batches, hseeds, hpure]
    · rw [Progress.seedsAndRounds, hpure]
  · obtain ⟨first, hfirst⟩ := Progress.exists_advances_evaluateAndObserve hseeds
    obtain ⟨later, hlater⟩ := Progress.exists_advances_rounds hrounds
    rw [(hfirst.trans hlater).record] at htransient
    have htransient' : Transient f config.policy.attempts (first ++ later) := htransient
    obtain ⟨q, hpure, hmasks⟩ := hstart.exists_evaluateAndObserve hpolicy hseeds hfirst
      (htransient'.of_infix (List.prefix_append _ _).isInfix) policy
    obtain ⟨hsuggestions, q', hpures, hmasks'⟩ := hmasks.exists_rounds hpolicy hrounds hlater
      (htransient'.of_infix (List.suffix_append _ _).isInfix) policy
    refine ⟨?_, q', ?_, hmasks'⟩
    · rw [batches, batches, hseeds, hpure]
      simp only [hsuggestions]
    · rw [Progress.seedsAndRounds, hpure]
      exact hpures

/-- Let an evaluator give the values of an objective in some calls of a run and fail in others, but not in as many
calls in a row as the run has attempts. Then the run of the objective itself, under whichever policy, is handed the
same batches and ends with the same optimizer. It is called for the calls that did not fail. Either both runs end
with the same error, or both have the same outcome, up to the calls that failed. -/
theorem run_masks {f : PureObjective} {n : ℕ} (hn : 1 ≤ n) {config : RunConfig}
    (hpolicy : config.policy = .retry n) {o next : Optimizer σ} {e e' : ε}
    {r : Except (Halt RunError) RunOutcome} {calls : List (Candidate × Evaluation)}
    (h : run config o (⟨e, []⟩ : RecordedEvaluator ε) = (r, next, ⟨e', calls⟩))
    (htransient : Transient f n calls) (policy : FailurePolicy) :
    run config o e = (r, next, e') ∧
    batches { config with policy := policy } o f = batches config o e ∧
    ∃ r', run { config with policy := policy } o f = (r', next, f) ∧
      run { config with policy := policy } o (⟨f, []⟩ : RecordedEvaluator PureObjective) =
        (r', next, ⟨f, successful calls⟩) ∧
      (∀ halt, r = .error halt → r' = .error halt) ∧
      ∀ outcome, r = .ok outcome → ∃ evaluations,
        outcome.evaluations = evaluations + outcome.failures ∧
        r' = .ok { outcome with evaluations := evaluations, failures := 0 } := by
  have hretry : config.policy ≠ .abort := by
    rw [hpolicy]
    nofun
  have hattempts : config.policy.attempts = n := by
    rw [hpolicy]
    exact max_eq_left hn
  obtain ⟨ended, last, hended, rfl, hevaluator, hr⟩ := run_cases h
  have hrecord : last.session.evaluator.calls = calls := congrArg RecordedEvaluator.calls hevaluator
  rw [← hattempts, ← hrecord] at htransient
  obtain ⟨hbatches, q, hpure, hmasks⟩ := exists_masks_seedsAndRounds hretry hended htransient policy
  rw [RecordedEvaluator.batches_eq, RecordedEvaluator.batches_eq] at hbatches
  have hobjective := hmasks.evaluator
  rw [hrecord] at hobjective
  refine ⟨RecordedEvaluator.run_eq h, hbatches, ?_⟩
  obtain ⟨halt, rfl, rfl⟩ | ⟨rfl, rfl⟩ := hr
  · have hrun := run_of_error hpure
    rw [hmasks.optimizer, hobjective] at hrun
    exact ⟨_, RecordedEvaluator.run_eq hrun, hrun, fun _ hhalt => hhalt, nofun⟩
  · have hrun := run_of_ok hpure
    rw [hmasks.optimizer, hobjective] at hrun
    refine ⟨_, RecordedEvaluator.run_eq hrun, hrun, ?_⟩
    obtain ⟨e, hp, hq⟩ | ⟨outcome, evaluations, hp, hcount, hq⟩ := hmasks.outcome_cases config policy
    · rw [hp, hq]
      exact ⟨fun _ hhalt => hhalt, nofun⟩
    · rw [hp, hq]
      refine ⟨nofun, ?_⟩
      intro other hother
      cases hother
      exact ⟨evaluations, hcount, rfl⟩

/-! ### A run whose evaluator fails at first -/

def unitObjective : PureObjective := ⟨fun _ => 1.0, fun _ => by decide⟩

def retriedConfig : RunConfig :=
  { RunConfig.standard with
    iterations := 1
    batchSize := 2
    policy := .retry 3 }

def retriedStart : Optimizer IndifferentModel :=
  .start pointSpace .indifferent .standard

/-- The two failed calls leave no trace but the tally, also compared with a run that no failure would survive. -/
theorem retriedRun_masks :
    ∃ outcome next e', run retriedConfig retriedStart (⟨2⟩ : SlowStarter) = (.ok outcome, next, e') ∧
      outcome.evaluations = 4 ∧ outcome.failures = 2 ∧
      run { retriedConfig with policy := .abort } retriedStart unitObjective =
        (.ok { outcome with evaluations := 2, failures := 0 }, next, unitObjective) := by
  have htally : (run retriedConfig retriedStart (⟨2⟩ : SlowStarter)).1.toOption.map
      (fun outcome => (outcome.evaluations, outcome.failures)) = some (4, 2) := by decide
  have htransient : Transient unitObjective 3
      (run retriedConfig retriedStart (⟨⟨2⟩, []⟩ : RecordedEvaluator SlowStarter)).2.2.calls := by
    decide
  rcases hrun : run retriedConfig retriedStart (⟨⟨2⟩, []⟩ : RecordedEvaluator SlowStarter) with
    ⟨r, next, e', calls⟩
  rw [hrun] at htransient
  obtain ⟨hplain, -, r', hpure, -, -, hok⟩ := run_masks (by decide) rfl hrun htransient .abort
  rw [hplain] at htally
  cases r with
  | error halt => cases htally
  | ok outcome =>
    obtain ⟨evaluations, hcount, rfl⟩ := hok outcome rfl
    obtain ⟨hevaluations, hfailures⟩ := Prod.mk.inj (Option.some.inj htally)
    obtain rfl : evaluations = 2 := by omega
    exact ⟨outcome, next, e', hplain, hevaluations, hfailures, hpure⟩

end DelayTuning
