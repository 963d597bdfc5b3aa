import DelayTuning.Proofs.Optimizer.History
import DelayTuning.Surrogate.GaussianProcess

/-!
# Refitting lazily and refitting always

An optimizer with a Gaussian process keeps the process that it has fit and fits it again only when something has
been observed since. The reference keeps nothing: each request for a batch fits a brand-new process of the same
parameters on the whole ledger. The two give the same answers for ever. The relation `InStep` carries the proof:
apart from the process, the mark and the number of fits the two states are equal, and a process that is not stale
is what a brand-new one becomes by a fit on the whole ledger.

## Main definitions

- `Optimizer.suggestAnew`: a request for a batch that fits a brand-new process
- `Optimizer.performAnew`, `Optimizer.afterAnew`, `Optimizer.transcriptAnew`: one call of the reference,
  the state it has after a history, and its answers
- `Optimizer.InStep`: the optimizer and the reference between two calls

## Main statements

- `GaussianProcess.fit_cases_ofConfig`: a fit does not depend on what has been learned before
- `Optimizer.InStep.perform`: one call, answered alike
- `Optimizer.lazy_refits`: every history is answered alike
-/

namespace DelayTuning

namespace GaussianProcess

/-- A brand-new process with the same parameters becomes the same process by a fit, or the fit fails in
    the same way and changes neither of them. -/
theorem fit_cases_ofConfig (gp : GaussianProcess) (space : Space Double)
    (observations : List Observation) :
    (∃ fitted, fitted.config = gp.config ∧ gp.fit space observations = (.ok (), fitted) ∧
      (ofConfig gp.config).fit space observations = (.ok (), fitted)) ∨
    ∃ e, gp.fit space observations = (.error e, gp) ∧
      (ofConfig gp.config).fit space observations = (.error e, ofConfig gp.config) := by
  rw [fit, fit]
  split
  · exact Or.inr ⟨_, rfl, rfl⟩
  simp only [ofConfig]
  split
  · next regression _ =>
    exact Or.inl ⟨{ gp with fitted := some ⟨space, regression, _⟩ }, rfl, rfl, rfl⟩
  · exact Or.inr ⟨_, rfl, rfl⟩

end GaussianProcess

namespace Optimizer

/-! ### The reference -/

/-- The next `size` candidates to evaluate, by a brand-new process that is fit on the whole ledger. -/
def suggestAnew (process : GaussianProcessConfig) (o : Optimizer GaussianProcess) (size : Nat) :
    Except (Halt TuneError) (List Candidate) × Optimizer GaussianProcess :=
  if size = 0 then (.error (.refused (.invalidRequest .emptyBatch)), o)
  else if maxBatchSize < size then
    (.error (.refused (.invalidRequest (.oversizedBatch size maxBatchSize))), o)
  else if o.ledger.isEmpty then o.initialBatch size
  else
    match (GaussianProcess.ofConfig process).fit o.space o.ledger.entries with
    | (.ok (), gp) => { o with surrogate := gp, fitCount := o.fitCount + 1 }.propose size
    | (.error e, _) => (.error (.refused e), o)

/-- One call of the reference. It observes like any optimizer; whether its process is stale is never asked. -/
def performAnew (process : GaussianProcessConfig) (o : Optimizer GaussianProcess) :
    Call → Answer × Optimizer GaussianProcess
  | .suggest size => (.suggested (o.suggestAnew process size).1, (o.suggestAnew process size).2)
  | .observe candidates values =>
    (.observed (o.observe candidates values).1, (o.observe candidates values).2)

def afterAnew (process : GaussianProcessConfig) (o : Optimizer GaussianProcess) :
    List Call → Optimizer GaussianProcess
  | [] => o
  | call :: rest => (o.performAnew process call).2.afterAnew process rest

/-- The calls of a history with the answers of the reference. -/
def transcriptAnew (process : GaussianProcessConfig) (o : Optimizer GaussianProcess) :
    List Call → List (Call × Answer)
  | [] => []
  | call :: rest =>
    (call, (o.performAnew process call).1) :: (o.performAnew process call).2.transcriptAnew process rest

/-! ### One call -/

/-- An optimizer and the reference between two calls: they agree on everything but the process, and what
    the process of the optimizer has learned, unless it is stale, is what a brand-new process learns from
    the whole ledger. -/
structure InStep (process : GaussianProcessConfig) (o reference : Optimizer GaussianProcess) :
    Prop where
  rest : reference = { o with
    surrogate := reference.surrogate
    stale := reference.stale
    fitCount := reference.fitCount }
  parameters : o.surrogate.config = process
  current : o.stale = false → o.ledger.entries ≠ [] →
    (GaussianProcess.ofConfig process).fit o.space o.ledger.entries = (.ok (), o.surrogate)
  fitCount : o.fitCount ≤ reference.fitCount

theorem inStep_start (space : Space Double) (gp : GaussianProcess) (config : OptimizerConfig) :
    InStep gp.config (start space gp config) (start space (.ofConfig gp.config) config) where
  rest := rfl
  parameters := rfl
  current := by simp [start, Ledger.empty]
  fitCount := Nat.le_refl _

theorem refresh_of_fit {o : Optimizer GaussianProcess} (hstale : o.stale = true)
    {gp : GaussianProcess} (hfit : o.surrogate.fit o.space o.ledger.entries = (.ok (), gp)) :
    o.refresh = (.ok (), { o with surrogate := gp, stale := false, fitCount := o.fitCount + 1 }) := by
  have hsurrogate : Surrogate.fit o.surrogate o.space o.ledger.entries = (.ok (), gp) := hfit
  rw [refresh, if_pos hstale, hsurrogate]

theorem refresh_of_fit_error {o : Optimizer GaussianProcess} (hstale : o.stale = true)
    {e : TuneError} {gp : GaussianProcess}
    (hfit : o.surrogate.fit o.space o.ledger.entries = (.error e, gp)) :
    o.refresh = (.error e, { o with surrogate := gp }) := by
  have hsurrogate : Surrogate.fit o.surrogate o.space o.ledger.entries = (.error e, gp) := hfit
  rw [refresh, if_pos hstale, hsurrogate]

namespace InStep

variable {process : GaussianProcessConfig} {o reference : Optimizer GaussianProcess}

/-- The reference is the optimizer with another process, mark and number of fits. -/
theorem exists_eq (h : InStep process o reference) :
    ∃ gp stale fitCount,
      reference = { o with surrogate := gp, stale := stale, fitCount := fitCount } :=
  ⟨_, _, _, h.rest⟩

theorem withGenerator (h : InStep process o reference) (g : Generator) :
    InStep process { o with generator := g } { reference with generator := g } := by
  obtain ⟨gp, stale, fitCount, rfl⟩ := h.exists_eq
  exact ⟨rfl, h.parameters, h.current, h.fitCount⟩

/-- With something on the ledger, a refresh ends with what a brand-new process becomes by a fit, or neither of
the two can be fit and the optimizer stays as it is. -/
theorem refresh_cases (h : InStep process o reference) (hledger : o.ledger.entries ≠ []) :
    (∃ ready fitted, o.refresh = (.ok (), ready) ∧
      (GaussianProcess.ofConfig process).fit reference.space reference.ledger.entries = (.ok (), fitted) ∧
      fitted = ready.surrogate ∧
      InStep process ready { reference with surrogate := fitted, fitCount := reference.fitCount + 1 }) ∨
    ∃ e gp, o.refresh = (.error e, o) ∧
      (GaussianProcess.ofConfig process).fit reference.space reference.ledger.entries = (.error e, gp) := by
  obtain ⟨gp, stale, fitCount, rfl⟩ := h.exists_eq
  by_cases hstale : o.stale = true
  · have hcases := o.surrogate.fit_cases_ofConfig o.space o.ledger.entries
    rw [h.parameters] at hcases
    obtain ⟨fitted, hconfig, hfit, hnew⟩ | ⟨e, hfit, hnew⟩ := hcases
    · exact Or.inl ⟨_, fitted, refresh_of_fit hstale hfit, hnew, rfl, rfl, hconfig, fun _ _ => hnew,
        Nat.succ_le_succ h.fitCount⟩
    · exact Or.inr ⟨e, _, refresh_of_fit_error hstale hfit, hnew⟩
  -- nothing has been observed since the last fit, so only the reference fits
  · have hcurrent := h.current (Bool.eq_false_iff.mpr hstale) hledger
    refine Or.inl ⟨o, o.surrogate, ?_, hcurrent, rfl, rfl, h.parameters, h.current,
      Nat.le_succ_of_le h.fitCount⟩
    rw [refresh, if_neg hstale]

/-- With the same process the two propose the same batch. -/
theorem propose (h : InStep process o reference) (hsurrogate : reference.surrogate = o.surrogate)
    (size : Nat) :
    (reference.propose size).1 = (o.propose size).1 ∧
      InStep process (o.propose size).2 (reference.propose size).2 := by
  obtain ⟨gp, stale, fitCount, rfl⟩ := h.exists_eq
  obtain rfl : gp = o.surrogate := hsurrogate
  rw [Optimizer.propose, Optimizer.propose]
  simp only
  split
  · next pool g _ =>
    have hacquire : Surrogate.acquire o.surrogate pool = (o.surrogate.acquire pool, o.surrogate) :=
      rfl
    rw [chooseFrom, chooseFrom]
    simp only [hacquire]
    cases o.surrogate.acquire pool with
    | ok scores =>
      simp only
      split
      · exact ⟨rfl, h.withGenerator g⟩
      · exact ⟨rfl, h.withGenerator g⟩
    | error e => exact ⟨rfl, h.withGenerator g⟩
  · next g _ => exact ⟨rfl, h.withGenerator g⟩

/-- A first batch is drawn alike. -/
theorem initialBatch (h : InStep process o reference) (size : Nat) :
    (reference.initialBatch size).1 = (o.initialBatch size).1 ∧
      InStep process (o.initialBatch size).2 (reference.initialBatch size).2 := by
  obtain ⟨gp, stale, fitCount, rfl⟩ := h.exists_eq
  rw [Optimizer.initialBatch, Optimizer.initialBatch]
  simp only
  split
  · exact ⟨rfl, h.withGenerator _⟩
  · split
    · next g _ => exact ⟨rfl, h.withGenerator g⟩
    · next g _ => exact ⟨rfl, h.withGenerator g⟩

theorem suggest (h : InStep process o reference) (size : Nat) :
    (reference.suggestAnew process size).1 = (o.suggest size).1 ∧
      InStep process (o.suggest size).2 (reference.suggestAnew process size).2 := by
  have hisEmpty : reference.ledger.isEmpty = o.ledger.isEmpty := by rw [h.rest]
  rw [suggestAnew, Optimizer.suggest, hisEmpty]
  split
  · exact ⟨rfl, h⟩
  split
  · exact ⟨rfl, h⟩
  split
  · exact h.initialBatch size
  next hsome =>
  have hentries : o.ledger.entries ≠ [] := fun hnil => hsome (List.isEmpty_iff.mpr hnil)
  obtain ⟨ready, fitted, hrefresh, hfit, hsurrogate, hready⟩ | ⟨e, gp, hrefresh, hfit⟩ :=
    h.refresh_cases hentries
  · rw [hrefresh, hfit]
    exact hready.propose hsurrogate size
  · rw [hrefresh, hfit]
    exact ⟨rfl, h⟩

/-- What has been evaluated is recorded alike; a model that is not stale afterwards was not stale before,
    and nothing has been recorded. -/
theorem recorded (h : InStep process o reference) (evaluated : List (Candidate × Float)) :
    InStep process (o.recorded evaluated) (reference.recorded evaluated) := by
  obtain ⟨gp, stale, fitCount, rfl⟩ := h.exists_eq
  refine ⟨rfl, h.parameters, ?_, h.fitCount⟩
  intro hstale hledger
  obtain ⟨hcurrent, hnone⟩ := Bool.or_eq_false_iff.mp hstale
  obtain rfl : evaluated = [] := by simpa using hnone
  rw [recorded_nil] at hledger ⊢
  exact h.current hcurrent hledger

theorem observe (h : InStep process o reference) (candidates : List Candidate) (values : List Float) :
    (reference.observe candidates values).1 = (o.observe candidates values).1 ∧
      InStep process (o.observe candidates values).2 (reference.observe candidates values).2 := by
  have hfault : reference.batchFault? candidates values = o.batchFault? candidates values := by
    rw [h.rest]
    rfl
  rw [Optimizer.observe, Optimizer.observe, hfault]
  cases hnone : o.batchFault? candidates values with
  | some e => exact ⟨rfl, h⟩
  | none =>
    obtain ⟨-, -, hfinite⟩ := (batchFault?_eq_none_iff o candidates values).mp hnone
    have hvalues : ∀ p ∈ candidates.zip values, p.2.isFinite = true :=
      fun p hp => hfinite p.2 (List.of_mem_zip hp).2
    rw [record_of_finite reference hvalues, record_of_finite o hvalues]
    exact ⟨rfl, h.recorded _⟩

/-- One call is answered alike. -/
theorem perform (h : InStep process o reference) (call : Call) :
    (reference.performAnew process call).1 = (o.perform call).1 ∧
      InStep process (o.perform call).2 (reference.performAnew process call).2 := by
  cases call with
  | suggest size =>
    obtain ⟨hanswer, hnext⟩ := h.suggest size
    exact ⟨congrArg Answer.suggested hanswer, hnext⟩
  | observe candidates values =>
    obtain ⟨hanswer, hnext⟩ := h.observe candidates values
    exact ⟨congrArg Answer.observed hanswer, hnext⟩

/-- Every history is answered alike. -/
theorem after (h : InStep process o reference) (calls : List Call) :
    reference.transcriptAnew process calls = o.transcript calls ∧
      InStep process (o.after calls) (reference.afterAnew process calls) := by
  induction calls generalizing o reference with
  | nil => exact ⟨rfl, h⟩
  | cons call rest ih =>
    obtain ⟨hanswer, hnext⟩ := h.perform call
    obtain ⟨htranscript, hafter⟩ := ih hnext
    refine ⟨?_, hafter⟩
    rw [transcriptAnew, transcript, hanswer, htranscript]

end InStep

/-- From any space, process and parameters, and whatever is asked and observed, each answer is the one of the
reference, which fits a brand-new process on the whole ledger for each batch, and so are the ledger, the best
observation and the generator at the end. Only the number of fits can differ, and it is not larger. -/
theorem lazy_refits (space : Space Double) (gp : GaussianProcess) (config : OptimizerConfig)
    (calls : List Call) :
    let o := start space gp config
    let reference := start space (.ofConfig gp.config) config
    o.transcript calls = reference.transcriptAnew gp.config calls ∧
      (o.after calls).ledger = (reference.afterAnew gp.config calls).ledger ∧
      (o.after calls).best = (reference.afterAnew gp.config calls).best ∧
      (o.after calls).generator = (reference.afterAnew gp.config calls).generator ∧
      (o.after calls).fitCount ≤ (reference.afterAnew gp.config calls).fitCount := by
  intro o reference
  obtain ⟨htranscript, hafter⟩ := (inStep_start space gp config).after calls
  obtain ⟨_, _, _, hrest⟩ := hafter.exists_eq
  refine ⟨htranscript.symm, ?_, ?_, ?_, hafter.fitCount⟩
  · rw [hrest]
  · rw [hrest]
    rfl
  · rw [hrest]

end Optimizer

end DelayTuning
