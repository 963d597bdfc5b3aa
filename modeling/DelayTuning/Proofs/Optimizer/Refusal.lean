import DelayTuning.Proofs.Optimizer.History
import DelayTuning.Proofs.Surrogate.GaussianProcess

/-!
# Refused calls of a search with a Gaussian process

A search with a Gaussian process refuses a batch for its size or because the kernel matrix has no factor,
and for no other reason. The invariant `Informed` is what excludes the other reasons: every observation
has a coordinate for each parameter, and a model that is not stale was fit for the space of the search. A
refused call leaves the search exactly as it was.

## Main definitions

- `Optimizer.Informed`: the invariant of a search with a Gaussian process

## Main statements

- `Optimizer.Informed.suggest_cases`: the outcomes of a request for a batch
- `Optimizer.gaussianProcess_refusals`: which calls are refused, and that they change nothing
-/

namespace DelayTuning

namespace Optimizer

/-- All observations are points of the space's dimension, and once something has been observed a model
    that is not stale has been fit for the space. -/
structure Informed (o : Optimizer GaussianProcess) : Prop where
  dimension : ∀ observation ∈ o.ledger.entries, observation.candidate.length = o.space.dimension
  fitted : o.stale = false → o.ledger.entries ≠ [] →
    ∃ model, o.surrogate.fitted = some model ∧ model.space = o.space

theorem informed_start (space : Space Double) (gp : GaussianProcess) (config : OptimizerConfig) :
    Informed (start space gp config) where
  dimension := by simp [start, Ledger.empty]
  fitted := by simp [start, Ledger.empty]

namespace Informed

variable {o next : Optimizer GaussianProcess}

theorem withGenerator (h : Informed o) (g : Generator) : Informed { o with generator := g } :=
  ⟨h.dimension, h.fitted⟩

/-- Recording points of the space's dimension keeps the invariant. -/
theorem withRecorded (h : Informed o) {evaluated : List (Candidate × Float)}
    (hdimension : ∀ p ∈ evaluated, p.1.length = o.space.dimension) :
    Informed (o.recorded evaluated) := by
  refine ⟨?_, ?_⟩
  · intro observation hmem
    rw [entries_recorded] at hmem
    obtain hmem | hmem := List.mem_append.mp hmem
    · exact h.dimension observation hmem
    · obtain ⟨p, hp, rfl⟩ := List.mem_map.mp hmem
      exact hdimension p hp
  · -- a model that is not stale afterwards was not stale before, and nothing has been recorded
    intro hstale hledger
    obtain ⟨hcurrent, hnone⟩ := Bool.or_eq_false_iff.mp hstale
    obtain rfl : evaluated = [] := by simpa using hnone
    rw [recorded_nil] at hledger ⊢
    exact h.fitted hcurrent hledger

/-- A refresh ends with a model that was fit for the space, or it finds no factor and changes nothing. -/
theorem refresh_cases (h : Informed o) (hledger : o.ledger.entries ≠ [])
    {r : Except TuneError Unit} (hrefresh : o.refresh = (r, next)) :
    (r = .ok () ∧ Informed next ∧
      ∃ model, next.surrogate.fitted = some model ∧ model.space = o.space) ∨
    (r = .error (.surrogate (.notPositiveDefinite o.count)) ∧ next = o) := by
  obtain hstale | ⟨hstale, hfit⟩ | ⟨hstale, hfit⟩ := refreshes_of_refresh hrefresh
  · exact Or.inl ⟨rfl, h, h.fitted hstale hledger⟩
  -- what the refresh has seen of the fit agrees with one of the two outcomes of a fit
  · obtain ⟨model, hspace, hmodel⟩ | hnone := o.surrogate.fit_cases o.space hledger
    · obtain rfl : _ = { o.surrogate with fitted := some model } :=
        (Prod.ext_iff.mp (hfit.symm.trans hmodel)).2
      exact Or.inl ⟨rfl, ⟨h.dimension, fun _ _ => ⟨model, rfl, hspace⟩⟩, model, rfl, hspace⟩
    · cases hfit.symm.trans hnone
  · obtain ⟨model, -, hmodel⟩ | hnone := o.surrogate.fit_cases o.space hledger
    · cases hfit.symm.trans hmodel
    · cases hfit.symm.trans hnone
      exact Or.inr ⟨rfl, rfl⟩

theorem exists_scores (h : Informed o) (hledger : o.ledger.entries ≠ [])
    (hrefresh : o.refresh = (.ok (), next)) {size : Nat} {pool : List Candidate} {g : Generator}
    (hpool : drawPool o.space o.config o.ledger size o.generator = (some pool, g)) :
    ∃ scores, next.surrogate.acquire pool = .ok scores ∧ scores.length = pool.length := by
  obtain ⟨-, -, model, hfitted, hspace⟩ | ⟨herror, -⟩ := h.refresh_cases hledger hrefresh
  · refine GaussianProcess.exists_scores hfitted ?_
    rw [hspace]
    exact length_of_mem_drawPool hledger h.dimension hpool
  · cases herror

/-- A request for a batch is refused for its size, or because the kernel matrix of the ledger has no
    factor, or it is not refused. Refused requests change nothing. -/
theorem suggest_cases (h : Informed o) {size : Nat}
    {r : Except (Halt TuneError) (List Candidate)} (hsuggest : o.suggest size = (r, next)) :
    (¬ Proper size ∧ (∃ fault, r = .error (.refused (.invalidRequest fault))) ∧ next = o) ∨
    (Proper size ∧ r = .error (.refused (.surrogate (.notPositiveDefinite o.count))) ∧ next = o) ∨
    (Proper size ∧ (∀ e, r ≠ .error (.refused e)) ∧ Informed next) := by
  cases suggests_of_suggest hsuggest with
  | empty hsize =>
    exact Or.inl ⟨fun hproper => hproper.1 hsize, ⟨_, rfl⟩, rfl⟩
  | oversized hsize =>
    exact Or.inl ⟨fun hproper => Nat.not_lt.mpr hproper.2 hsize, ⟨_, rfl⟩, rfl⟩
  | initial hsize hledger =>
    obtain ⟨g, hg⟩ := exists_generator_initialBatch o size
    exact Or.inr (Or.inr ⟨hsize, initialBatch_ne_refused o size, hg ▸ h.withGenerator g⟩)
  | unfit hsize hledger hrefresh =>
    obtain ⟨hok, -⟩ | ⟨herror, hsame⟩ := h.refresh_cases hledger hrefresh
    · cases hok
    · cases herror
      exact Or.inr (Or.inl ⟨hsize, rfl, hsame⟩)
  | undrawn hsize hledger hrefresh hpool =>
    obtain ⟨-, hready, -⟩ | ⟨herror, -⟩ := h.refresh_cases hledger hrefresh
    · exact Or.inr (Or.inr ⟨hsize, by simp, hready.withGenerator _⟩)
    · cases herror
  -- a model that has been refreshed scores every pool, so the next two cases do not occur
  | @unscored ready g pool e s hsize hledger hrefresh hpool hscores =>
    obtain ⟨scores, hok, -⟩ := h.exists_scores hledger hrefresh hpool
    cases hscores.symm.trans (congrArg (·, ready.surrogate) hok)
  | @miscounted ready g pool scores s hsize hledger hrefresh hpool hscores hcount =>
    obtain ⟨scores', hok, hlength⟩ := h.exists_scores hledger hrefresh hpool
    cases hscores.symm.trans (congrArg (·, ready.surrogate) hok)
    exact absurd hlength hcount
  | @chosen ready g pool scores s hsize hledger hrefresh hpool hscores hcount =>
    obtain ⟨-, hready, -⟩ | ⟨herror, -⟩ := h.refresh_cases hledger hrefresh
    · obtain rfl : ready.surrogate = s := (Prod.ext_iff.mp hscores).2
      exact Or.inr (Or.inr ⟨hsize, by simp, hready.withGenerator g⟩)
    · cases herror

/-- An observation keeps the invariant, and a refused one changes nothing. -/
theorem observe_cases (h : Informed o) {candidates : List Candidate} {values : List Float}
    {r : Except TuneError Unit} (hobserve : o.observe candidates values = (r, next)) :
    Informed next ∧ (∀ e, r = .error e → next = o) := by
  cases observes_of_observe hobserve with
  | refused hfault => exact ⟨h, fun _ _ => rfl⟩
  | recorded hlength hdimension hfinite =>
    exact ⟨h.withRecorded fun p hp => hdimension p.1 (List.of_mem_zip hp).1, by simp⟩

/-- Every call keeps the invariant. -/
theorem perform (h : Informed o) (call : Call) : Informed (o.perform call).2 := by
  cases call with
  | suggest size =>
    have hsuggest : o.suggest size = ((o.suggest size).1, (o.suggest size).2) := rfl
    obtain ⟨-, -, hsame⟩ | ⟨-, -, hsame⟩ | ⟨-, -, hnext⟩ := h.suggest_cases hsuggest
    · exact hsame.symm ▸ h
    · exact hsame.symm ▸ h
    · exact hnext
  | observe candidates values =>
    have hobserve : o.observe candidates values =
        ((o.observe candidates values).1, (o.observe candidates values).2) := rfl
    exact (h.observe_cases hobserve).1

/-- A refused call changes nothing. -/
theorem perform_of_isRefusal (h : Informed o) (call : Call)
    (hrefused : (o.perform call).1.isRefusal = true) : (o.perform call).2 = o := by
  cases call with
  | suggest size =>
    have hsuggest : o.suggest size = ((o.suggest size).1, (o.suggest size).2) := rfl
    obtain ⟨-, -, hsame⟩ | ⟨-, -, hsame⟩ | ⟨-, hnone, -⟩ := h.suggest_cases hsuggest
    · exact hsame
    · exact hsame
    · cases hresult : (o.suggest size).1 with
      | ok batch => simp [Optimizer.perform, hresult, Answer.isRefusal] at hrefused
      | error halt =>
        cases halt with
        | refused e => exact absurd hresult (hnone e)
        | unboundedDraw => simp [Optimizer.perform, hresult, Answer.isRefusal] at hrefused
  | observe candidates values =>
    have hobserve : o.observe candidates values =
        ((o.observe candidates values).1, (o.observe candidates values).2) := rfl
    cases hresult : (o.observe candidates values).1 with
    | ok _ => simp [Optimizer.perform, hresult, Answer.isRefusal] at hrefused
    | error e => exact (h.observe_cases hobserve).2 e hresult

theorem after (h : Informed o) (calls : List Call) : Informed (o.after calls) :=
  invariant_after (fun _ call ho => ho.perform call) h calls

end Informed

/-- After every history of a search that starts with any Gaussian process, fit or not:
    a request for a batch is refused for its size, exactly if it is empty or above the limit, or because
    the kernel matrix of all the observations has no factor, and for no other reason;
    a refused call changes nothing at all;
    and without the refused calls the history has the same other answers and ends in the same state. -/
theorem gaussianProcess_refusals (space : Space Double) (gp : GaussianProcess)
    (config : OptimizerConfig) (calls : List Call) :
    let o := (start space gp config).after calls
    (∀ size next e, o.suggest size = (.error (.refused e), next) →
      (∃ fault, e = .invalidRequest fault) ∨
        (e = .surrogate (.notPositiveDefinite o.count) ∧
          e.message = "Surrogate model error: " ++
            s!"kernel matrix of {o.count} points is not positive definite")) ∧
    (∀ size, (∃ fault next,
        o.suggest size = (.error (.refused (.invalidRequest fault)), next)) ↔
      size = 0 ∨ maxBatchSize < size) ∧
    (∀ call, (o.perform call).1.isRefusal = true → (o.perform call).2 = o) ∧
    (start space gp config).transcript (((start space gp config).kept calls).map Prod.fst) =
      (start space gp config).kept calls ∧
    (start space gp config).after (((start space gp config).kept calls).map Prod.fst) = o := by
  intro o
  have hstart := informed_start space gp config
  have ho : Informed o := hstart.after calls
  refine ⟨?_, ?_, ho.perform_of_isRefusal, ?_⟩
  · intro size next e hsuggest
    obtain ⟨-, ⟨fault, hr⟩, -⟩ | ⟨-, hr, -⟩ | ⟨-, hnone, -⟩ := ho.suggest_cases hsuggest
    · cases hr
      exact Or.inl ⟨fault, rfl⟩
    · cases hr
      exact Or.inr ⟨rfl, rfl⟩
    · exact absurd rfl (hnone e)
  · intro size
    constructor
    · rintro ⟨fault, next, hsuggest⟩
      obtain ⟨himproper, -, -⟩ | ⟨-, hr, -⟩ | ⟨-, hnone, -⟩ := ho.suggest_cases hsuggest
      · rw [Proper] at himproper
        omega
      · cases hr
      · exact absurd rfl (hnone _)
    · rintro (hempty | hlarge)
      · exact ⟨_, _, if_pos hempty⟩
      · have hpos : ¬ size = 0 := by omega
        exact ⟨_, _, (if_neg hpos).trans (if_pos hlarge)⟩
  · exact transcript_kept (fun _ call h => h.perform call)
      (fun _ call h => h.perform_of_isRefusal call) hstart calls

/-- A kernel without a variance, whose matrices have no factor. -/
def factorlessProcess : GaussianProcess :=
  .ofConfig { GaussianProcessConfig.standard with signalVariance := 0.0 / 0.0 }

/-- A search with such a kernel does refuse batches, and it is none the worse for it. -/
theorem factorless_refusals :
    let o := (start pointSpace factorlessProcess .standard).after [.observe [[0.5]] [1.0]]
    (o.perform (.suggest 1)).1.isRefusal = true ∧ (o.perform (.suggest 1)).2 = o := by
  intro o
  have hrefused : (o.perform (.suggest 1)).1.isRefusal = true := by decide +kernel
  have hrefusals := gaussianProcess_refusals pointSpace factorlessProcess .standard
    [.observe [[0.5]] [1.0]]
  exact ⟨hrefused, hrefusals.2.2.1 (.suggest 1) hrefused⟩

end Optimizer

end DelayTuning
