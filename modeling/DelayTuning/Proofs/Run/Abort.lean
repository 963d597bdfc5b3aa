import DelayTuning.Proofs.Run.Course

/-!
# Runs that end at the first failure

Under the policy to end the run the first failed call is the last one. The batches before it are recorded, each
one as a whole, and of its own batch nothing is. The other policies never end a run for a failed call.

## Main definitions

- `Session.Tries`: how a batch can go if the first failure ends it
- `Course`: how a sequence of batches can go

## Main statements

- `Session.exists_tries_evaluateBatch`, `Progress.exists_course_rounds`: the loops of a run go that way
- `Course.ends_at_failure`: what has been recorded when a call has failed
- `run_aborts`: the whole run
-/

namespace DelayTuning

variable {σ ε : Type} [Surrogate σ] [Evaluator ε]

/-- The call that gave a candidate its value. -/
def success (p : Candidate × Float) : Candidate × Evaluation :=
  (p.1, .ok p.2)

/-- Values that evaluated candidates can have. -/
def AllFinite (values : List (Candidate × Float)) : Prop :=
  ∀ p ∈ values, p.2.isFinite = true

theorem AllFinite.cons {values : List (Candidate × Float)} (h : AllFinite values)
    {p : Candidate × Float} (hp : p.2.isFinite = true) : AllFinite (p :: values) :=
  List.forall_mem_cons.mpr ⟨hp, h⟩

/-- A failed call after calls that gave values comes after all of them. -/
theorem exists_append_of_isFailure {values : List (Candidate × Float)} (hvalues : AllFinite values)
    {calls earlier later : List (Candidate × Evaluation)} {call : Candidate × Evaluation}
    (hfailed : call.2.isFailure = true)
    (h : values.map success ++ calls = earlier ++ call :: later) :
    ∃ between, earlier = values.map success ++ between ∧ calls = between ++ call :: later := by
  induction values generalizing earlier with
  | nil => exact ⟨earlier, rfl, h⟩
  | cons p values ih =>
    obtain ⟨hp, hrest⟩ := List.forall_mem_cons.mp hvalues
    cases earlier with
    | nil =>
      obtain ⟨rfl, -⟩ := List.cons_eq_cons.mp h
      simp [success, Evaluation.isFailure, hp] at hfailed
    | cons first earlier =>
      obtain ⟨rfl, htail⟩ := List.cons_eq_cons.mp h
      obtain ⟨between, rfl, hcalls⟩ := ih hrest htail
      exact ⟨between, rfl, hcalls⟩

/-! ### One batch -/

namespace Session

/-- How a batch can go if the first failure ends it: every candidate has a value, or there is a first one that
has none. -/
inductive Tries (config : RunConfig) :
    List Candidate → Except RunError (List (Candidate × Float)) → List (Candidate × Evaluation) → Prop
  | whole (values : List (Candidate × Float)) (hfinite : AllFinite values) :
    Tries config (values.map Prod.fst) (.ok values) (values.map success)
  | broken (part : List (Candidate × Float)) (hfinite : AllFinite part) (candidate : Candidate)
    (rest : List Candidate) (answer : Evaluation) (hfailed : answer.isFailure = true) :
    Tries config (part.map Prod.fst ++ candidate :: rest) (.error (.aborted config.name answer.failure))
      (part.map success ++ [(candidate, answer)])

theorem exists_tries_evaluateBatch {config : RunConfig} (habort : config.policy = .abort)
    {s next : Session (RecordedEvaluator ε)} {batch : List Candidate}
    {r : Except RunError (List (Candidate × Float))} (h : evaluateBatch config batch s = (r, next)) :
    ∃ calls, Tries config batch r calls ∧ Advances s next calls := by
  have hextra : config.policy.extraAttempts = 0 := by rw [habort]; rfl
  induction batch generalizing s r with
  | nil =>
    cases h
    exact ⟨[], .whole [] (by simp [AllFinite]), Advances.refl _⟩
  | cons candidate rest ih =>
    have hcases := evaluateBatch_cons_cases h
    rw [hextra] at hcases
    obtain ⟨failure, -, hcall, rfl⟩ | ⟨attempted, middle, result, hok, hcall, hrest, rfl⟩ := hcases
    · obtain ⟨answer, hanswer, hadvances⟩ := exists_usableValue_of_call hcall
      obtain ⟨hfailed, hfailure⟩ | ⟨value, -, -, hvalue⟩ := answer.usableValue_cases
      · cases hanswer.trans hfailure
        exact ⟨_, .broken [] (by simp [AllFinite]) candidate rest answer hfailed, hadvances⟩
      · cases hanswer.trans hvalue
    · obtain ⟨answer, hanswer, hadvances⟩ := exists_usableValue_of_call hcall
      obtain ⟨-, hfailure⟩ | ⟨value, rfl, hfinite, hvalue⟩ := answer.usableValue_cases
      · cases hanswer.trans hfailure
        cases hok habort
      cases hanswer.trans hvalue
      obtain ⟨calls, htries, hcalls⟩ := ih hrest
      refine ⟨(candidate, .ok value) :: calls, ?_, hadvances.trans hcalls⟩
      -- the first candidate goes in front of what the others come to
      cases htries with
      | whole values hvalues => exact .whole ((candidate, value) :: values) (hvalues.cons hfinite)
      | broken part hpart c rest answer hfailed =>
        exact .broken ((candidate, value) :: part) (hpart.cons hfinite) c rest answer hfailed

end Session

/-! ### One batch after the other -/

/-- How a sequence of batches can go if the first failure ends it, from one ledger to another. It can also end
because no batch is suggested, or because a batch is refused when it is observed. -/
inductive Course (config : RunConfig) : Ledger → List (List Candidate) → List (Candidate × Evaluation) →
    Except (Halt RunError) Unit → Ledger → Prop
  | done (l : Ledger) : Course config l [] [] (.ok ()) l
  | unsuggested (l : Ledger) (halt : Halt TuneError) :
    Course config l [] [] (.error halt.inRun) l
  | refused (l : Ledger) (values : List (Candidate × Float)) (hfinite : AllFinite values) (e : TuneError) :
    Course config l [values.map Prod.fst] (values.map success) (.error (.refused (.engine e))) l
  | broken (l : Ledger) (part : List (Candidate × Float)) (hfinite : AllFinite part)
    (candidate : Candidate) (rest : List Candidate) (answer : Evaluation)
    (hfailed : answer.isFailure = true) :
    Course config l [part.map Prod.fst ++ candidate :: rest] (part.map success ++ [(candidate, answer)])
      (.error (.refused (.aborted config.name answer.failure))) l
  | recorded {l last : Ledger} (values : List (Candidate × Float)) (hfinite : AllFinite values)
    {batches : List (List Candidate)} {calls : List (Candidate × Evaluation)}
    {r : Except (Halt RunError) Unit}
    (hrest : Course config (l.extend (Optimizer.observations values)) batches calls r last) :
    Course config l (values.map Prod.fst :: batches) (values.map success ++ calls) r last

namespace Course

variable {config : RunConfig} {l last : Ledger} {batches : List (List Candidate)}
  {calls : List (Candidate × Evaluation)} {r : Except (Halt RunError) Unit}

/-- Batches that were all recorded can be followed by others. -/
theorem trans {middle : Ledger} {later : List (List Candidate)}
    {laterCalls : List (Candidate × Evaluation)} (h : Course config l batches calls (.ok ()) middle)
    (h' : Course config middle later laterCalls r last) :
    Course config l (batches ++ later) (calls ++ laterCalls) r last := by
  generalize hok : (.ok () : Except (Halt RunError) Unit) = ended at h
  induction h with
  | done => exact h'
  | unsuggested => cases hok
  | refused => cases hok
  | broken => cases hok
  | recorded values hfinite hrest ih =>
    rw [List.append_assoc]
    exact .recorded values hfinite (ih h' hok)

/-- A failed call is the last one. The batches before it are recorded, and nothing else is. -/
theorem ends_at_failure (h : Course config l batches calls r last)
    {earlier later : List (Candidate × Evaluation)} {candidate : Candidate} {answer : Evaluation}
    (hcalls : calls = earlier ++ (candidate, answer) :: later) (hfailed : answer.isFailure = true) :
    later = [] ∧ r = .error (.refused (.aborted config.name answer.failure)) ∧
      ∃ (recorded : List (List (Candidate × Float))) (part : List (Candidate × Float))
        (rest : List Candidate),
        earlier = (recorded.flatten ++ part).map success ∧
        batches = recorded.map (List.map Prod.fst) ++ [part.map Prod.fst ++ candidate :: rest] ∧
        last = l.extend (Optimizer.observations recorded.flatten) := by
  induction h generalizing earlier with
  | done => simp at hcalls
  | unsuggested => simp at hcalls
  | refused l values hfinite e =>
    rw [← List.append_nil (values.map success)] at hcalls
    obtain ⟨between, -, hnil⟩ := exists_append_of_isFailure hfinite hfailed hcalls
    simp at hnil
  | broken l part hfinite c rest a ha =>
    obtain ⟨between, rfl, hlast⟩ := exists_append_of_isFailure hfinite hfailed hcalls
    obtain ⟨rfl, hcons⟩ | ⟨-, hnil⟩ := List.append_eq_singleton_iff.mp hlast.symm
    · cases hcons
      exact ⟨rfl, rfl, [], part, rest, by simp, rfl, rfl⟩
    · cases hnil
  | recorded values hfinite hrest ih =>
    obtain ⟨between, rfl, hbetween⟩ := exists_append_of_isFailure hfinite hfailed hcalls
    obtain ⟨hlater, hr, recorded, part, rest, rfl, rfl, rfl⟩ := ih hbetween
    refine ⟨hlater, hr, values :: recorded, part, rest, ?_, rfl, ?_⟩
    · rw [List.flatten_cons, List.append_assoc]
      exact List.map_append.symm
    · rw [List.flatten_cons, Optimizer.observations_append, Ledger.extend_append]

/-- The run is only ended for a call that failed. -/
theorem exists_isFailure_of_aborted (h : Course config l batches calls r last) {name : String}
    {failure : EvaluationFailure} (hr : r = .error (.refused (.aborted name failure))) :
    ∃ call ∈ calls, call.2.isFailure = true := by
  induction h with
  | done => cases hr
  | unsuggested l halt => cases halt <;> cases hr
  | refused => cases hr
  | broken l part hfinite candidate rest answer hfailed =>
    exact ⟨(candidate, answer), by simp, hfailed⟩
  | recorded values hfinite hrest ih =>
    obtain ⟨call, hmem, hfailed⟩ := ih hr
    exact ⟨call, List.mem_append_right _ hmem, hfailed⟩

end Course

namespace Progress

variable {config : RunConfig} {p next : Progress σ (RecordedEvaluator ε)}
  {r : Except (Halt RunError) Unit}

omit [Surrogate σ] in
theorem exists_course_evaluateAndObserve (habort : config.policy = .abort) {batch : List Candidate}
    (h : p.evaluateAndObserve config batch = (r, next)) :
    ∃ calls, Course config p.optimizer.ledger [batch] calls r next.optimizer.ledger ∧
      p.session.Advances next.session calls := by
  obtain ⟨e, hbatch, hsame, rfl⟩ | ⟨evaluated, result, hbatch, hobserve, rfl⟩ :=
    evaluateAndObserve_cases h
  · obtain ⟨calls, htries, hcalls⟩ := Session.exists_tries_evaluateBatch habort hbatch
    refine ⟨calls, ?_, hcalls⟩
    rw [hsame]
    cases htries with
    | broken part hpart candidate rest answer hfailed =>
      exact .broken _ part hpart candidate rest answer hfailed
  · obtain ⟨calls, htries, hcalls⟩ := Session.exists_tries_evaluateBatch habort hbatch
    refine ⟨calls, ?_, hcalls⟩
    cases htries with
    | whole _ hfinite =>
      rw [p.optimizer.observe_of_finite hfinite] at hobserve
      split at hobserve
      · obtain ⟨rfl, hnext⟩ := Prod.mk.inj hobserve
        rw [← hnext]
        exact .refused _ evaluated hfinite _
      · obtain ⟨rfl, hnext⟩ := Prod.mk.inj hobserve
        rw [← hnext, ← List.append_nil (evaluated.map success)]
        exact .recorded evaluated hfinite (.done _)

theorem exists_course_rounds (habort : config.policy = .abort) {n : Nat}
    (h : p.rounds config n = (r, next)) :
    ∃ calls, Course config p.optimizer.ledger (p.suggestions config n) calls r next.optimizer.ledger ∧
      p.session.Advances next.session calls := by
  induction n generalizing p with
  | zero =>
    cases h
    exact ⟨[], .done _, .refl _⟩
  | succ n ih =>
    obtain ⟨halt, hround, rfl⟩ | ⟨middle, hround, hrest⟩ := rounds_succ_cases h
    · obtain ⟨reason, hsuggest, hsession, hreason⟩ | ⟨batch, asked, hsuggest, hbatch⟩ := round_cases hround
      · cases hreason
        rw [suggestions, hsuggest, hsession, Optimizer.ledger_of_suggest hsuggest]
        exact ⟨[], .unsuggested _ reason, .refl _⟩
      · rw [suggestions, hsuggest, hround, ← Optimizer.ledger_of_suggest hsuggest]
        show ∃ calls, Course config asked.ledger [batch] calls _ next.optimizer.ledger ∧
          ({ p with optimizer := asked } : Progress σ _).session.Advances next.session calls
        exact exists_course_evaluateAndObserve habort hbatch
    · obtain ⟨_, -, -, hreason⟩ | ⟨batch, asked, hsuggest, hbatch⟩ := round_cases hround
      · cases hreason
      · obtain ⟨first, hfirst, hadvances⟩ := exists_course_evaluateAndObserve habort hbatch
        obtain ⟨later, hlater, hadvances'⟩ := ih hrest
        rw [suggestions, hsuggest, hround, ← Optimizer.ledger_of_suggest hsuggest]
        exact ⟨first ++ later, hfirst.trans hlater, hadvances.trans hadvances'⟩

end Progress

/-! ### The whole run -/

theorem exists_course_seedsAndRounds {config : RunConfig} (habort : config.policy = .abort)
    {o : Optimizer σ} {e : RecordedEvaluator ε} {next : Progress σ (RecordedEvaluator ε)}
    {r : Except (Halt RunError) Unit}
    (h : Progress.seedsAndRounds config ⟨o, e, .zero⟩ = (r, next)) :
    ∃ calls, Course config o.ledger (batches config o e) calls r next.optimizer.ledger ∧
      next.session.evaluator.calls = e.calls ++ calls := by
  obtain ⟨halt, hseeds, rfl⟩ | ⟨middle, hseeds, hrounds⟩ := Progress.seedsAndRounds_cases h
  · obtain ⟨calls, hcourse, hadvances⟩ := Progress.exists_course_evaluateAndObserve habort hseeds
    rw [batches, hseeds]
    exact ⟨calls, hcourse, hadvances.record⟩
  · obtain ⟨first, hfirst, hadvances⟩ := Progress.exists_course_evaluateAndObserve habort hseeds
    obtain ⟨later, hlater, hadvances'⟩ := Progress.exists_course_rounds habort hrounds
    rw [batches, hseeds]
    exact ⟨first ++ later, hfirst.trans hlater, (hadvances.trans hadvances').record⟩

/-! ### Ends that are no failures of the evaluator -/

section Engine

variable (name : String) (failure : EvaluationFailure)

theorem mapError_engine_ne_aborted {α : Type} (result : Except TuneError α) :
    result.mapError (Halt.refused ∘ RunError.engine) ≠ .error (.refused (.aborted name failure)) := by
  cases result with
  | error e => nofun
  | ok a => nofun

theorem inRun_ne_aborted (halt : Halt TuneError) : halt.inRun ≠ .refused (.aborted name failure) := by
  cases halt with
  | refused e => nofun
  | unboundedDraw => nofun

variable {config : RunConfig} {p next : Progress σ ε} {r : Except (Halt RunError) Unit}

omit [Surrogate σ] in
theorem evaluateAndObserve_ne_aborted (hpolicy : config.policy ≠ .abort) {batch : List Candidate}
    (h : p.evaluateAndObserve config batch = (r, next)) :
    r ≠ .error (.refused (.aborted name failure)) := by
  obtain ⟨e, hbatch, -⟩ | ⟨_, result, -, -, rfl⟩ := Progress.evaluateAndObserve_cases h
  · obtain ⟨evaluated, s, hok⟩ := Session.exists_evaluateBatch_eq_ok hpolicy batch p.session
    cases hbatch.symm.trans hok
  · exact mapError_engine_ne_aborted name failure result

theorem rounds_ne_aborted (hpolicy : config.policy ≠ .abort) {n : Nat}
    (h : p.rounds config n = (r, next)) : r ≠ .error (.refused (.aborted name failure)) := by
  induction n generalizing p with
  | zero =>
    cases h
    nofun
  | succ n ih =>
    obtain ⟨halt, hround, rfl⟩ | ⟨middle, -, hrest⟩ := Progress.rounds_succ_cases h
    · obtain ⟨reason, -, -, hreason⟩ | ⟨batch, asked, -, hbatch⟩ := Progress.round_cases hround
      · intro haborted
        exact inRun_ne_aborted name failure reason (Except.error.inj (hreason.symm.trans haborted))
      · exact evaluateAndObserve_ne_aborted name failure hpolicy hbatch
    · exact ih hrest

/-- Under another policy no run is ended for a call that failed. -/
theorem run_ne_aborted (hpolicy : config.policy ≠ .abort) {o last : Optimizer σ} {e e' : ε}
    {result : Except (Halt RunError) RunOutcome} (h : run config o e = (result, last, e')) :
    result ≠ .error (.refused (.aborted name failure)) := by
  obtain ⟨ended, p, hended, -, -, ⟨halt, hhalt, rfl⟩ | ⟨-, rfl⟩⟩ := run_cases h
  · have hended' : ended ≠ .error (.refused (.aborted name failure)) := by
      obtain ⟨_, hseeds, rfl⟩ | ⟨middle, -, hrounds⟩ := Progress.seedsAndRounds_cases hended
      · exact evaluateAndObserve_ne_aborted name failure hpolicy hseeds
      · exact rounds_ne_aborted name failure hpolicy hrounds
    intro haborted
    exact hended' (hhalt.trans (congrArg Except.error (Except.error.inj haborted)))
  · exact mapError_engine_ne_aborted name failure _

end Engine

/-- Whatever the model and the evaluator do: under the policy to end the run the first call that fails is the
last one, and the run ends with its name and the failure of this call. The ledger has grown by the batches before
the failed one, the seeds being the first batch, each of them as a whole; of the failed batch it has nothing.
Without a failed call the run does not end so, and under the other policies it never does. -/
theorem run_aborts {config : RunConfig} {o next : Optimizer σ} {e e' : ε}
    {r : Except (Halt RunError) RunOutcome} (h : run config o e = (r, next, e')) :
    ∃ calls, run config o (⟨e, []⟩ : RecordedEvaluator ε) = (r, next, ⟨e', calls⟩) ∧
      (config.policy = .abort →
        (∀ earlier candidate answer later, calls = earlier ++ (candidate, answer) :: later →
          answer.isFailure = true →
            later = [] ∧ r = .error (.refused (.aborted config.name answer.failure)) ∧
            ∃ (recorded : List (List (Candidate × Float))) (part : List (Candidate × Float))
              (rest : List Candidate),
              earlier = (recorded.flatten ++ part).map success ∧
              batches config o e =
                recorded.map (List.map Prod.fst) ++ [part.map Prod.fst ++ candidate :: rest] ∧
              next.ledger = o.ledger.extend (Optimizer.observations recorded.flatten)) ∧
        ∀ name failure, r = .error (.refused (.aborted name failure)) →
          ∃ call ∈ calls, call.2.isFailure = true) ∧
      (config.policy ≠ .abort → ∀ name failure, r ≠ .error (.refused (.aborted name failure))) := by
  obtain ⟨calls, hrecorded⟩ := RecordedEvaluator.exists_run h
  refine ⟨calls, hrecorded, ?_, fun hpolicy name failure => run_ne_aborted name failure hpolicy h⟩
  intro habort
  obtain ⟨ended, last, hended, rfl, hevaluator, hr⟩ := run_cases hrecorded
  obtain ⟨made, hcourse, hmade⟩ := exists_course_seedsAndRounds habort hended
  obtain rfl : calls = made := by
    rw [hevaluator] at hmade
    exact hmade
  rw [RecordedEvaluator.batches_eq] at hcourse
  constructor
  · intro earlier candidate answer later hcalls hfailed
    obtain ⟨hlater, rfl, hledger⟩ := hcourse.ends_at_failure hcalls hfailed
    obtain ⟨halt, hhalt, rfl⟩ | ⟨hok, -⟩ := hr
    · cases hhalt
      exact ⟨hlater, rfl, hledger⟩
    · cases hok
  · intro name failure haborted
    obtain ⟨halt, rfl, rfl⟩ | ⟨-, rfl⟩ := hr
    · exact hcourse.exists_isFailure_of_aborted (congrArg Except.error (Except.error.inj haborted))
    · exact absurd haborted (mapError_engine_ne_aborted name failure _)

/-! ### A run with a seed that is no number -/

def brokenConfig : RunConfig where
  name := "broken"
  iterations := 2
  batchSize := 1
  seeds := [[0.5], [.nan false], [0.25]]
  policy := .abort

def brokenStart : Optimizer IndifferentModel :=
  .start pointSpace .indifferent .standard

/-- The call for the second seed is the last one, and the first seed is not recorded. -/
theorem brokenRun_aborts :
    ∃ earlier candidate answer,
      (run brokenConfig brokenStart (⟨.standard, []⟩ : RecordedEvaluator QuadraticBowl)).2.2.calls =
        earlier ++ [(candidate, answer)] ∧
      answer.failure = ⟨.malformedOutput, "non-finite objective NaN"⟩ ∧
      (run brokenConfig brokenStart QuadraticBowl.standard).1 =
        .error (.refused (.aborted "broken" answer.failure)) ∧
      (run brokenConfig brokenStart QuadraticBowl.standard).2.1.ledger = .empty := by
  have haborted : (run brokenConfig brokenStart QuadraticBowl.standard).1 =
      .error (.refused (.aborted "broken" ⟨.malformedOutput, "non-finite objective NaN"⟩)) := by
    decide
  rcases hrun : run brokenConfig brokenStart QuadraticBowl.standard with ⟨r, next, e'⟩
  rw [hrun] at haborted
  obtain ⟨calls, hrecorded, habort, -⟩ := run_aborts hrun
  obtain ⟨hfirst, hfailed⟩ := habort rfl
  obtain ⟨⟨candidate, answer⟩, hmem, hfailure⟩ := hfailed _ _ haborted
  obtain ⟨earlier, later, hcalls⟩ := List.append_of_mem hmem
  obtain ⟨rfl, hr, -⟩ := hfirst earlier candidate answer later hcalls hfailure
  refine ⟨earlier, candidate, answer, ?_, ?_, hr, ?_⟩
  · rw [hrecorded]
    exact hcalls
  · have hsame := Except.error.inj (hr.symm.trans haborted)
    exact (RunError.aborted.inj (Halt.refused.inj hsame)).2
  · have hledger : (run brokenConfig brokenStart QuadraticBowl.standard).2.1.ledger = .empty := by
      decide
    rwa [hrun] at hledger

end DelayTuning
