import DelayTuning.Proofs.Optimizer.History

/-!
# When a model is fit and asked

A model is asked for scores only when its last fit has succeeded on the whole ledger of that moment, and it
is fit only when something has been observed since it knew everything. Both are read off the record of the
model's calls, by an invariant of the histories that ties the record to the ledger and to the stale flag.

## Main definitions

- `LastFit`: the last fit in a record of calls
- `Optimizer.Consults`: the calls of the model that one call of the optimizer can lead to
- `Optimizer.Tracked`: the invariant
- `Optimizer.Advances`: what is kept from one state of a history to a later one

## Main statements

- `Optimizer.Tracked.after`: the invariant holds after every history
- `Optimizer.acquire_follows_fit`: which calls a model receives, over all histories
-/

namespace DelayTuning

/-- The last fit in a record of calls was on these observations, and it succeeded. -/
def LastFit (observations : List Observation) (calls : List ModelCall) : Prop :=
  ∃ earlier later, calls = earlier ++ .fit observations true :: later ∧
    ∀ c ∈ later, c.isFit = false

theorem lastFit_concat (observations : List Observation) (calls : List ModelCall) :
    LastFit observations (calls ++ [.fit observations true]) :=
  ⟨calls, [], rfl, by simp⟩

theorem LastFit.concat_acquire {observations : List Observation} {calls : List ModelCall}
    (h : LastFit observations calls) (pool : List Candidate) :
    LastFit observations (calls ++ [.acquire pool]) := by
  obtain ⟨earlier, later, rfl, hlater⟩ := h
  refine ⟨earlier, later ++ [.acquire pool], by simp, ?_⟩
  intro c hc
  obtain hc | hc := List.mem_append.mp hc
  · exact hlater c hc
  · obtain rfl := List.mem_singleton.mp hc
    rfl

namespace Optimizer

variable {σ : Type}

/-- The calls of the model between two states, and what they do to the flag and the count of the fits. -/
inductive Consults (o next : Optimizer (RecordedModel σ)) : List ModelCall → Prop
  | nothing (hstale : next.stale = o.stale) (hcount : next.fitCount = o.fitCount) :
    Consults o next []
  | failedFit (hstale : o.stale = true) (hnext : next.stale = true)
    (hcount : next.fitCount = o.fitCount) :
    Consults o next [.fit o.ledger.entries false]
  | fit (hnext : next.stale = false) (hcount : next.fitCount = o.fitCount + 1)
    (hstale : o.stale = true) :
    Consults o next [.fit o.ledger.entries true]
  | acquire (pool : List Candidate) (hstale : o.stale = false) (hnext : next.stale = false)
    (hcount : next.fitCount = o.fitCount) :
    Consults o next [.acquire pool]
  | fitAndAcquire (pool : List Candidate) (hstale : o.stale = true) (hnext : next.stale = false)
    (hcount : next.fitCount = o.fitCount + 1) :
    Consults o next [.fit o.ledger.entries true, .acquire pool]

namespace Consults

variable {o next : Optimizer (RecordedModel σ)} {made : List ModelCall}

/-- No call of the optimizer fits the model twice. -/
theorem countP_isFit_le_one (h : Consults o next made) : made.countP ModelCall.isFit ≤ 1 := by
  cases h with
  | nothing => exact Nat.zero_le 1
  | failedFit => exact Nat.le_refl 1
  | fit => exact Nat.le_refl 1
  | acquire => exact Nat.zero_le 1
  | fitAndAcquire => exact Nat.le_refl 1

/-- A model that knows all observations is not fit. -/
theorem countP_isFit_of_current (h : Consults o next made) (hcurrent : o.stale = false) :
    made.countP ModelCall.isFit = 0 := by
  cases h with
  | nothing => rfl
  | failedFit hstale => exact absurd hcurrent (by simp [hstale])
  | fit _ _ hstale => exact absurd hcurrent (by simp [hstale])
  | acquire => rfl
  | fitAndAcquire _ hstale => exact absurd hcurrent (by simp [hstale])

/-- The count of the fits goes up by the fits that succeeded. -/
theorem fitCount_eq (h : Consults o next made) :
    next.fitCount = o.fitCount + made.countP ModelCall.isSuccessfulFit := by
  cases h with
  | nothing _ hcount => exact hcount
  | failedFit _ _ hcount => exact hcount
  | fit _ hcount => exact hcount
  | acquire _ _ _ hcount => exact hcount
  | fitAndAcquire _ _ _ hcount => exact hcount

/-- A model that knew all observations, or that has been fit, knows them all now. -/
theorem current (h : Consults o next made)
    (hknown : o.stale = false ∨ ∃ c ∈ made, c.isSuccessfulFit = true) : next.stale = false := by
  cases h with
  | nothing hstale =>
    obtain hcurrent | ⟨c, hc, -⟩ := hknown
    · rw [hstale, hcurrent]
    · cases hc
  | failedFit hstale =>
    obtain hcurrent | ⟨c, hc, hfit⟩ := hknown
    · exact absurd hcurrent (by simp [hstale])
    · obtain rfl := List.mem_singleton.mp hc
      cases hfit
  | fit hnext => exact hnext
  | acquire _ _ hnext => exact hnext
  | fitAndAcquire _ _ hnext => exact hnext

end Consults

variable [Surrogate σ]

/-! ### The calls that one request leads to -/

/-- A question for scores comes after a fit if the model was stale. -/
theorem exists_calls_acquire {o ready : Optimizer (RecordedModel σ)}
    (hrefresh : o.refresh = (.ok (), ready)) {pool : List Candidate}
    {result : Except TuneError (List Double)} {s : RecordedModel σ}
    (hscores : Surrogate.acquire ready.surrogate pool = (result, s)) (g : Generator) :
    ∃ made, s.calls = o.surrogate.calls ++ made ∧ ready.ledger = o.ledger ∧
      Consults o { ready with generator := g, surrogate := s } made := by
  have hs := RecordedModel.calls_of_acquire hscores
  cases refreshes_of_refresh hrefresh with
  | current hstale => exact ⟨_, hs, rfl, .acquire pool hstale hstale rfl⟩
  | refit hstale hfit =>
    have hready := RecordedModel.calls_of_fit hfit
    refine ⟨[.fit o.ledger.entries true, .acquire pool], ?_, rfl,
      .fitAndAcquire pool hstale rfl rfl⟩
    rw [hs, hready, List.append_assoc]
    rfl

theorem exists_calls_suggest {o next : Optimizer (RecordedModel σ)} {size : Nat}
    {r : Except (Halt TuneError) (List Candidate)} (h : o.suggest size = (r, next)) :
    ∃ made, next.surrogate.calls = o.surrogate.calls ++ made ∧ next.ledger = o.ledger ∧
      Consults o next made ∧ (made ≠ [] → Proper size ∧ o.ledger.entries ≠ []) := by
  cases suggests_of_suggest h with
  | empty => exact ⟨[], by simp, rfl, .nothing rfl rfl, by simp⟩
  | oversized => exact ⟨[], by simp, rfl, .nothing rfl rfl, by simp⟩
  | initial =>
    obtain ⟨g, hg⟩ := exists_generator_initialBatch o size
    rw [hg]
    exact ⟨[], by simp, rfl, .nothing rfl rfl, by simp⟩
  | unfit hsize hledger hrefresh =>
    cases refreshes_of_refresh hrefresh with
    | unfit hstale hfit =>
      exact ⟨_, RecordedModel.calls_of_fit hfit, rfl, .failedFit hstale hstale rfl,
        fun _ => ⟨hsize, hledger⟩⟩
  | undrawn hsize hledger hrefresh hpool =>
    cases refreshes_of_refresh hrefresh with
    | current => exact ⟨[], by simp, rfl, .nothing rfl rfl, by simp⟩
    | refit hstale hfit =>
      exact ⟨_, RecordedModel.calls_of_fit hfit, rfl, .fit rfl rfl hstale,
        fun _ => ⟨hsize, hledger⟩⟩
  | @unscored _ g _ _ _ hsize hledger hrefresh _ hscores =>
    obtain ⟨made, hcalls, hsame, hmade⟩ := exists_calls_acquire hrefresh hscores g
    exact ⟨made, hcalls, hsame, hmade, fun _ => ⟨hsize, hledger⟩⟩
  | @miscounted _ g _ _ _ hsize hledger hrefresh _ hscores =>
    obtain ⟨made, hcalls, hsame, hmade⟩ := exists_calls_acquire hrefresh hscores g
    exact ⟨made, hcalls, hsame, hmade, fun _ => ⟨hsize, hledger⟩⟩
  | @chosen _ g _ _ _ hsize hledger hrefresh _ hscores =>
    obtain ⟨made, hcalls, hsame, hmade⟩ := exists_calls_acquire hrefresh hscores g
    exact ⟨made, hcalls, hsame, hmade, fun _ => ⟨hsize, hledger⟩⟩

/-- A call of the optimizer records evaluated candidates or asks for a batch. -/
theorem perform_cases (o : Optimizer (RecordedModel σ)) (call : Call) :
    (∃ candidates values evaluated, call = .observe candidates values ∧
      (o.perform call).2 = o.recorded evaluated) ∨
    (∃ size made, call = .suggest size ∧
      (o.perform call).2.surrogate.calls = o.surrogate.calls ++ made ∧
      (o.perform call).2.ledger = o.ledger ∧ Consults o (o.perform call).2 made ∧
      (made ≠ [] → Proper size ∧ o.ledger.entries ≠ [])) := by
  cases call with
  | suggest size =>
    obtain ⟨made, hmade⟩ := exists_calls_suggest (r := (o.suggest size).1) (o := o) rfl
    exact Or.inr ⟨size, made, rfl, hmade⟩
  | observe candidates values =>
    refine Or.inl ⟨candidates, values, ?_⟩
    rw [perform]
    rcases hobserve : o.observe candidates values with ⟨r, next⟩
    cases observes_of_observe hobserve with
    | refused => exact ⟨[], rfl, (recorded_nil o).symm⟩
    | recorded => exact ⟨candidates.zip values, rfl, rfl⟩

/-! ### The record and the ledger -/

/-- A model that is not stale was last fit, with success, on the whole ledger, and the count of the fits is
    the number of those that succeeded. -/
structure Tracked (o : Optimizer (RecordedModel σ)) : Prop where
  known : o.stale = false → o.ledger.entries ≠ [] → LastFit o.ledger.entries o.surrogate.calls
  fitCount : o.fitCount = o.surrogate.calls.countP ModelCall.isSuccessfulFit

omit [Surrogate σ] in
theorem tracked_start (space : Space Double) (s : σ) (config : OptimizerConfig) :
    Tracked (start space (⟨s, []⟩ : RecordedModel σ) config) :=
  ⟨fun _ hledger => absurd rfl hledger, rfl⟩

namespace Tracked

variable {o next : Optimizer (RecordedModel σ)} {made : List ModelCall}

omit [Surrogate σ]

theorem recorded (h : Tracked o) (evaluated : List (Candidate × Float)) :
    Tracked (o.recorded evaluated) := by
  refine ⟨?_, h.fitCount⟩
  -- a model that is not stale afterwards was not stale before, and nothing has been recorded
  intro hstale hledger
  obtain ⟨hcurrent, hnone⟩ := Bool.or_eq_false_iff.mp hstale
  obtain rfl : evaluated = [] := by simpa using hnone
  rw [recorded_nil] at hledger ⊢
  exact h.known hcurrent hledger

theorem consults (h : Tracked o) (hcalls : next.surrogate.calls = o.surrogate.calls ++ made)
    (hledger : next.ledger = o.ledger) (hmade : Consults o next made) : Tracked next := by
  refine ⟨?_, ?_⟩
  · rw [hledger, hcalls]
    intro hstale hentries
    cases hmade with
    | nothing hsame =>
      rw [List.append_nil]
      exact h.known (hsame.symm.trans hstale) hentries
    | failedFit _ hnext => exact absurd hstale (by simp [hnext])
    | fit => exact lastFit_concat _ _
    | acquire pool hcurrent => exact (h.known hcurrent hentries).concat_acquire pool
    | fitAndAcquire pool =>
      have hfit := (lastFit_concat o.ledger.entries o.surrogate.calls).concat_acquire pool
      rwa [List.append_assoc] at hfit
  · rw [hcalls, List.countP_append, ← h.fitCount]
    exact hmade.fitCount_eq

/-- Scores are asked of a model that was last fit on the whole ledger. -/
theorem lastFit_of_acquire (h : Tracked o) (hledger : o.ledger.entries ≠ [])
    (hmade : Consults o next made) {before after : List ModelCall} {pool : List Candidate}
    (hsplit : made = before ++ .acquire pool :: after) :
    LastFit o.ledger.entries (o.surrogate.calls ++ before) := by
  cases hmade with
  | nothing => simp at hsplit
  | failedFit =>
    obtain _ | ⟨c, rest⟩ := before
    · cases hsplit
    · simp at hsplit
  | fit =>
    obtain _ | ⟨c, rest⟩ := before
    · cases hsplit
    · simp at hsplit
  | acquire _ hcurrent =>
    obtain _ | ⟨c, rest⟩ := before
    · rw [List.append_nil]
      exact h.known hcurrent hledger
    · simp at hsplit
  | fitAndAcquire =>
    obtain _ | ⟨c, _ | ⟨d, rest⟩⟩ := before
    · cases hsplit
    · obtain ⟨rfl, -⟩ := List.cons.inj hsplit
      exact lastFit_concat _ _
    · simp at hsplit

end Tracked

theorem Tracked.perform {o : Optimizer (RecordedModel σ)} (h : Tracked o) (call : Call) :
    Tracked (o.perform call).2 := by
  obtain ⟨_, _, evaluated, -, hnext⟩ | ⟨_, made, -, hcalls, hledger, hmade, -⟩ := o.perform_cases call
  · rw [hnext]
    exact h.recorded evaluated
  · exact h.consults hcalls hledger hmade

theorem Tracked.after {o : Optimizer (RecordedModel σ)} (h : Tracked o) (calls : List Call) :
    Tracked (o.after calls) :=
  invariant_after (fun _ call ho => ho.perform call) h calls

/-! ### From one state of a history to a later one -/

/-- The calls of the model since an earlier state. If nothing has been recorded since then, a model that
    knew all observations at that time or has been fit since knows them all now. -/
structure Advances (o next : Optimizer (RecordedModel σ)) (made : List ModelCall) : Prop where
  calls : next.surrogate.calls = o.surrogate.calls ++ made
  count_le : o.count ≤ next.count
  current : next.count = o.count →
    (o.stale = false ∨ ∃ c ∈ made, c.isSuccessfulFit = true) → next.stale = false

omit [Surrogate σ] in
theorem Advances.trans {o middle next : Optimizer (RecordedModel σ)}
    {first second : List ModelCall} (h : Advances o middle first)
    (h' : Advances middle next second) : Advances o next (first ++ second) := by
  have hfirst := h.count_le
  have hsecond := h'.count_le
  refine ⟨by rw [h'.calls, h.calls, List.append_assoc], by omega, ?_⟩
  intro hcount hknown
  -- the counts only go up, so nothing has been recorded in either part
  have hmiddle : middle.count = o.count := by omega
  have hnext : next.count = middle.count := by omega
  obtain hcurrent | ⟨c, hc, hfit⟩ := hknown
  · exact h'.current hnext (Or.inl (h.current hmiddle (Or.inl hcurrent)))
  · obtain hc | hc := List.mem_append.mp hc
    · exact h'.current hnext (Or.inl (h.current hmiddle (Or.inr ⟨c, hc, hfit⟩)))
    · exact h'.current hnext (Or.inr ⟨c, hc, hfit⟩)

theorem exists_advances_perform (o : Optimizer (RecordedModel σ)) (call : Call) :
    ∃ made, Advances o (o.perform call).2 made := by
  obtain ⟨_, _, evaluated, -, hnext⟩ | ⟨_, made, -, hcalls, hledger, hmade, -⟩ := o.perform_cases call
  · rw [hnext]
    refine ⟨[], by simp [Optimizer.recorded], by simp, ?_⟩
    intro hcount hknown
    obtain rfl : evaluated = [] := by simpa using hcount
    simpa using hknown
  · have hcount : (o.perform call).2.count = o.count := by rw [count, count, hledger]
    exact ⟨made, hcalls, Nat.le_of_eq hcount.symm, fun _ hknown => hmade.current hknown⟩

theorem exists_advances_after (o : Optimizer (RecordedModel σ)) (calls : List Call) :
    ∃ made, Advances o (o.after calls) made := by
  induction calls generalizing o with
  | nil => exact ⟨[], by simp, by simp, fun _ hknown => by simpa using hknown⟩
  | cons call rest ih =>
    obtain ⟨first, hfirst⟩ := o.exists_advances_perform call
    obtain ⟨second, hsecond⟩ := ih (o.perform call).2
    exact ⟨first ++ second, hfirst.trans hsecond⟩

/-- Any model, put behind a record of its calls, answers as it does without one, and for each call of any
    history, failed calls included:
    the count of the fits is the number of fits in the record that succeeded;
    each question for scores comes after a fit that succeeded on the whole ledger, in its order, and after
    no other fit since then;
    the model is called only by requests for batches of a proper size when something has been observed;
    it is fit at most once by such a request, and not at all if a fit has succeeded at any time since the
    last observation was recorded. -/
theorem acquire_follows_fit (space : Space Double) (s : σ) (config : OptimizerConfig)
    (history : List Call) (call : Call) :
    let first := start space (⟨s, []⟩ : RecordedModel σ) config
    let o := first.after history
    let next := (o.perform call).2
    (next.map RecordedModel.model = (start space s config).after (history ++ [call]) ∧
      first.transcript (history ++ [call]) = (start space s config).transcript (history ++ [call])) ∧
    next.fitCount = next.surrogate.calls.countP ModelCall.isSuccessfulFit ∧
    ∃ made, next.surrogate.calls = o.surrogate.calls ++ made ∧
      (∀ before pool after, made = before ++ .acquire pool :: after →
        next.ledger = o.ledger ∧ LastFit o.ledger.entries (o.surrogate.calls ++ before)) ∧
      (made ≠ [] → ∃ size, call = .suggest size ∧ Proper size ∧ o.ledger.entries ≠ []) ∧
      made.countP ModelCall.isFit ≤ 1 ∧
      (∀ earlier later, history = earlier ++ later → (first.after earlier).count = o.count →
        ∃ since, o.surrogate.calls = (first.after earlier).surrogate.calls ++ since ∧
          ((∃ c ∈ since, c.isSuccessfulFit = true) → made.countP ModelCall.isFit = 0)) := by
  intro first o next
  have hnext : first.after (history ++ [call]) = next := after_append first history [call]
  have hforget := after_map RecordedModel.respects_model first (history ++ [call])
  rw [hnext] at hforget
  have ho : Tracked o := (tracked_start space s config).after history
  refine ⟨⟨hforget.1.symm, hforget.2.symm⟩, (ho.perform call).fitCount, ?_⟩
  -- nothing has been recorded since the earlier state, so a fit since then has made the model current
  have hcurrent : ∀ earlier later, history = earlier ++ later →
      (first.after earlier).count = o.count →
      ∃ since, o.surrogate.calls = (first.after earlier).surrogate.calls ++ since ∧
        ((∃ c ∈ since, c.isSuccessfulFit = true) → o.stale = false) := by
    intro earlier later hsplit hcount
    obtain ⟨since, hsince⟩ := (first.after earlier).exists_advances_after later
    rw [← after_append, ← hsplit] at hsince
    exact ⟨since, hsince.calls, fun hfit => hsince.current hcount.symm (Or.inr hfit)⟩
  rcases o.perform_cases call with
    ⟨_, _, evaluated, -, hrecorded⟩ | ⟨size, made, hcall, hcalls, hledger, hmade, hproper⟩
  · refine ⟨[], ?_, by simp, by simp, Nat.zero_le 1, ?_⟩
    · rw [List.append_nil]
      exact congrArg (·.surrogate.calls) hrecorded
    · intro earlier later hsplit hcount
      obtain ⟨since, hsince, -⟩ := hcurrent earlier later hsplit hcount
      exact ⟨since, hsince, fun _ => rfl⟩
  · refine ⟨made, hcalls, ?_, fun hsome => ⟨size, hcall, hproper hsome⟩,
      hmade.countP_isFit_le_one, ?_⟩
    · intro before pool after hsplit
      have hentries := (hproper (by simp [hsplit])).2
      exact ⟨hledger, ho.lastFit_of_acquire hentries hmade hsplit⟩
    · intro earlier later hsplit hcount
      obtain ⟨since, hsince, hknown⟩ := hcurrent earlier later hsplit hcount
      exact ⟨since, hsince, fun hfit => hmade.countP_isFit_of_current (hknown hfit)⟩

/-- A model is fit once for an observation, however often it is asked. -/
example :
    ((start pointSpace (⟨.indifferent, []⟩ : RecordedModel IndifferentModel) .standard).after
      [.suggest 1, .observe [[0.5]] [1.0], .suggest 1, .suggest 0, .suggest 1]).surrogate.calls.map
        ModelCall.isFit = [true, false, false] := by
  decide +kernel

end Optimizer

end DelayTuning
