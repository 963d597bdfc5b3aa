import DelayTuning.Run.Basic

/-!
# Trials of candidates

A trial is a candidate with the answers of the evaluator to it. A complete trial goes on until there is a
finite value, up to a limit; so the calls of a number of trials, the failed ones among them and the
candidates with a value are three counts of which two give the third.

## Main definitions

- `Evaluation.isFailure`, `Evaluation.finiteValue?`, `Evaluation.failure`: what an answer of the evaluator
  comes to
- `Trial`, `Trial.Complete`: a candidate with the answers to it, and when they are all there are
- `FailurePolicy.attempts`: the limit

## Main statements

- `length_flatMap_calls`: the calls are the failed ones and those that gave a value
- `length_le_length_flatMap_calls`, `length_flatMap_calls_le`: the number of calls is between the number
  of trials and so many times the limit
-/

namespace DelayTuning

/-- How often a candidate is tried at most. -/
def FailurePolicy.attempts : FailurePolicy → Nat
  | .retry attempts => max attempts 1
  | .skip => 1
  | .abort => 1

theorem FailurePolicy.extraAttempts_add_one (policy : FailurePolicy) :
    policy.extraAttempts + 1 = policy.attempts := by
  cases policy with
  | retry attempts =>
    have hmax : attempts - 1 + 1 = max attempts 1 := by omega
    exact hmax
  | skip => rfl
  | abort => rfl

/-- An answer of an evaluator. -/
abbrev Evaluation := Except EvaluationFailure Float

namespace Evaluation

/-- An error, an infinite value and a NaN are failures. -/
def isFailure : Evaluation → Bool
  | .ok value => !value.isFinite
  | .error _ => true

def finiteValue? : Evaluation → Option Float
  | .ok value => if value.isFinite then some value else none
  | .error _ => none

theorem finiteValue?_eq_none_iff (answer : Evaluation) :
    answer.finiteValue? = none ↔ answer.isFailure = true := by
  cases answer with
  | ok value => simp [finiteValue?, isFailure]
  | error failure => simp [finiteValue?, isFailure]

/-- The failure that an answer counts as, if it is one. -/
def failure : Evaluation → EvaluationFailure
  | .error failure => failure
  | .ok value => nonFiniteObjective value

theorem usableValue_cases (answer : Evaluation) :
    (answer.isFailure = true ∧ usableValue answer = .error answer.failure) ∨
      ∃ value, answer = .ok value ∧ value.isFinite = true ∧ usableValue answer = .ok value := by
  cases answer with
  | error failure => exact Or.inl ⟨rfl, rfl⟩
  | ok value =>
    by_cases hfinite : value.isFinite = true
    · exact Or.inr ⟨value, rfl, hfinite, if_pos hfinite⟩
    · exact Or.inl ⟨by simp [isFailure, hfinite], if_neg hfinite⟩

theorem toOption_usableValue (answer : Evaluation) :
    (usableValue answer).toOption = answer.finiteValue? := by
  obtain ⟨hfailed, hvalue⟩ | ⟨value, rfl, hfinite, hvalue⟩ := answer.usableValue_cases
  · rw [hvalue, (finiteValue?_eq_none_iff answer).mpr hfailed]
    rfl
  · rw [hvalue]
    exact (if_pos hfinite).symm

end Evaluation

/-- A candidate with the answers to it. -/
structure Trial where
  candidate : Candidate
  answers : List Evaluation
  deriving Repr

namespace Trial

/-- The calls of the evaluator in a trial. -/
def calls (t : Trial) : List (Candidate × Evaluation) :=
  t.answers.map fun answer => (t.candidate, answer)

/-- The value of a trial: the last answer, if it is finite. -/
def value? (t : Trial) : Option Float :=
  t.answers.getLast?.bind Evaluation.finiteValue?

def evaluated? (t : Trial) : Option (Candidate × Float) :=
  t.value?.map fun value => (t.candidate, value)

def observation? (t : Trial) : Option Observation :=
  t.value?.map fun value => ⟨t.candidate, value⟩

/-- A trial that stops at the first finite value, and without one only after `limit` failures. -/
structure Complete (limit : Nat) (t : Trial) : Prop where
  nonempty : t.answers ≠ []
  failed : ∀ answer ∈ t.answers.dropLast, answer.isFailure = true
  length_le : t.answers.length ≤ limit
  exhausted : t.value? = none → t.answers.length = limit

theorem complete_of_value {candidate : Candidate} {answer : Evaluation} {value : Float}
    (h : answer.finiteValue? = some value) (extra : Nat) :
    Complete (extra + 1) ⟨candidate, [answer]⟩ := by
  refine ⟨by simp, by simp, by simp, ?_⟩
  intro hnone
  have hvalue : answer.finiteValue? = none := hnone
  rw [h] at hvalue
  cases hvalue

theorem complete_once (candidate : Candidate) (answer : Evaluation) :
    Complete 1 ⟨candidate, [answer]⟩ :=
  ⟨by simp, by simp, by simp, fun _ => rfl⟩

theorem value?_cons (candidate : Candidate) (answer : Evaluation) {answers : List Evaluation}
    (h : answers ≠ []) :
    value? ⟨candidate, answer :: answers⟩ = value? ⟨candidate, answers⟩ := by
  obtain ⟨first, rest, rfl⟩ := List.exists_cons_of_ne_nil h
  rw [value?, value?, List.getLast?_cons_cons]

/-- A failure before a complete trial makes a complete trial with one attempt more. -/
theorem Complete.again {limit : Nat} {candidate : Candidate} {answers : List Evaluation}
    (h : Complete limit ⟨candidate, answers⟩) {answer : Evaluation}
    (hfailed : answer.isFailure = true) :
    Complete (limit + 1) ⟨candidate, answer :: answers⟩ := by
  have hlength := h.length_le
  refine ⟨by simp, ?_, by simpa using hlength, ?_⟩
  · intro a ha
    rw [List.dropLast_cons_of_ne_nil h.nonempty] at ha
    obtain rfl | ha := List.mem_cons.mp ha
    · exact hfailed
    · exact h.failed a ha
  · rw [value?_cons candidate answer h.nonempty]
    intro hnone
    simpa using h.exhausted hnone

/-- The calls of a complete trial are the failed ones, and one that gave a value if there is a value. -/
theorem Complete.length_calls {limit : Nat} {t : Trial} (h : Complete limit t) :
    t.calls.length =
      t.calls.countP (fun call => call.2.isFailure) + t.evaluated?.toList.length := by
  obtain ⟨failed, last, hanswers⟩ := (List.eq_nil_or_concat t.answers).resolve_left h.nonempty
  rw [List.concat_eq_append] at hanswers
  -- all answers but the last one are failures, and the last one is a failure or the value
  have hfailed : failed.countP Evaluation.isFailure = failed.length := by
    rw [List.countP_eq_length]
    simpa [hanswers] using h.failed
  have hvalue : t.value? = last.finiteValue? := by simp [value?, hanswers]
  have hlast : ([last].countP Evaluation.isFailure) + t.evaluated?.toList.length = 1 := by
    rw [evaluated?, hvalue]
    cases hv : last.finiteValue? with
    | none => simp [(Evaluation.finiteValue?_eq_none_iff last).mp hv]
    | some value =>
      have hsuccess : ¬ last.isFailure = true := by
        rw [← Evaluation.finiteValue?_eq_none_iff, hv]
        simp
      simp [hsuccess]
  have hcount : t.calls.countP (fun call => call.2.isFailure) =
      t.answers.countP Evaluation.isFailure := by
    rw [calls, List.countP_map]
    rfl
  rw [hcount, calls, List.length_map, hanswers, List.countP_append, List.length_append, hfailed,
    Nat.add_assoc, hlast]
  rfl

end Trial

/-! ### The calls of several trials -/

variable {limit : Nat} {trials : List Trial}

theorem filterMap_evaluated?_cons (t : Trial) (trials : List Trial) :
    (t :: trials).filterMap Trial.evaluated? =
      t.evaluated?.toList ++ trials.filterMap Trial.evaluated? := by
  cases hevaluated : t.evaluated? with
  | none => simp [hevaluated]
  | some p => simp [hevaluated]

theorem length_flatMap_calls (h : ∀ t ∈ trials, t.Complete limit) :
    (trials.flatMap Trial.calls).length =
      (trials.flatMap Trial.calls).countP (fun call => call.2.isFailure) +
        (trials.filterMap Trial.evaluated?).length := by
  induction trials with
  | nil => rfl
  | cons t rest ih =>
    have hhead := (h t List.mem_cons_self).length_calls
    have htail := ih fun u hu => h u (List.mem_cons_of_mem t hu)
    rw [List.flatMap_cons, filterMap_evaluated?_cons, List.length_append, List.length_append,
      List.countP_append]
    omega

theorem length_le_length_flatMap_calls (h : ∀ t ∈ trials, t.Complete limit) :
    trials.length ≤ (trials.flatMap Trial.calls).length := by
  induction trials with
  | nil => exact Nat.le_refl 0
  | cons t rest ih =>
    have hhead : 0 < t.calls.length := by
      simpa [Trial.calls, List.length_pos_iff] using (h t List.mem_cons_self).nonempty
    have htail := ih fun u hu => h u (List.mem_cons_of_mem t hu)
    rw [List.flatMap_cons, List.length_append, List.length_cons]
    omega

theorem length_flatMap_calls_le (h : ∀ t ∈ trials, t.Complete limit) :
    (trials.flatMap Trial.calls).length ≤ limit * trials.length := by
  induction trials with
  | nil => exact Nat.zero_le _
  | cons t rest ih =>
    have hhead : t.calls.length ≤ limit := by
      simpa [Trial.calls] using (h t List.mem_cons_self).length_le
    have htail := ih fun u hu => h u (List.mem_cons_of_mem t hu)
    rw [List.flatMap_cons, List.length_append, List.length_cons, Nat.mul_succ]
    omega

end DelayTuning
