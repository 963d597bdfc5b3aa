import DelayTuning.Proofs.Optimizer.Batch
import DelayTuning.Proofs.Space.Bounds

/-!
# What all states of a search have in common

Whatever the model does and whichever calls fail: the space and the parameters stay what they were, every
observation has a coordinate for each parameter of the space, and there is a best observation as soon as
there is one at all.

## Main definitions

- `Ledger.Indexed`: the best index points to an observation
- `Optimizer.Reached`: the invariant

## Main statements

- `Ledger.best_eq_error_iff`: when there is no best observation
- `Optimizer.reached_after`: the invariant holds after every history
- `Optimizer.Reached.length_of_mem_suggest`: suggested candidates are points of the space's dimension
-/

namespace DelayTuning

namespace Ledger

/-- The best index points to an observation, and it is missing only if there is none. -/
def Indexed (l : Ledger) : Prop :=
  (l.entries = [] ∧ l.bestIndex = none) ∨ ∃ i, l.bestIndex = some i ∧ i < l.count

theorem entries_ne_nil_of_isEmpty {l : Ledger} (h : l.isEmpty = false) : l.entries ≠ [] := by
  intro hnil
  rw [isEmpty, hnil] at h
  cases h

theorem indexed_empty : Indexed empty :=
  Or.inl ⟨rfl, rfl⟩

theorem Indexed.extend {l : Ledger} (h : l.Indexed) (observations : List Observation) :
    (l.extend observations).Indexed := by
  induction observations generalizing l with
  | nil => exact h
  | cons observation rest ih =>
    apply ih
    right
    by_cases himproves : l.improves observation.value = true
    · exact ⟨l.count, if_pos himproves, by simp [count]⟩
    obtain ⟨-, hnone⟩ | ⟨i, hi, hlt⟩ := h
    · -- the first observation is an improvement
      refine absurd ?_ himproves
      rw [improves, best?, hnone]
      rfl
    · refine ⟨i, (if_neg himproves).trans hi, ?_⟩
      rw [count] at hlt ⊢
      rw [List.length_append]
      omega

theorem best_eq_error_iff {l : Ledger} (h : l.Indexed) :
    l.best = .error .noObservations ↔ l.entries = [] := by
  rw [best, best?]
  obtain ⟨hentries, hnone⟩ | ⟨i, hi, hlt⟩ := h
  · simp [hentries, hnone]
  · have hne : l.entries ≠ [] := List.length_pos_iff.mp (Nat.zero_lt_of_lt hlt)
    simp [hi, List.getElem?_eq_getElem hlt, hne]

theorem best_cases (l : Ledger) :
    l.best = .error .noObservations ∨ ∃ observation, l.best = .ok observation := by
  rw [best]
  cases l.best? with
  | none => exact Or.inl rfl
  | some observation => exact Or.inr ⟨observation, rfl⟩

end Ledger

namespace Optimizer

variable {σ : Type}

theorem length_of_mem_initialBatch {o next : Optimizer σ} {size : Nat} {batch : List Candidate}
    (h : o.initialBatch size = (.ok batch, next)) :
    ∀ candidate ∈ batch, candidate.length = o.space.dimension := by
  rw [initialBatch] at h
  split at h
  · cases h
    exact Space.length_of_mem_latinHypercube size o.generator
  · split at h
    · next points g hdraw =>
      cases h
      exact forall_mem_of_drawEach? (fun _ _ _ _ hx => Space.length_of_uniform hx)
        (congrArg Prod.fst hdraw)
    · cases h

/-- The states of a search over a space: the space and the parameters are the given ones, all observations
are points of the space's dimension, and the best one is known. -/
structure Reached (space : Space Double) (config : OptimizerConfig) (o : Optimizer σ) : Prop where
  space_eq : o.space = space
  config_eq : o.config = config
  dimension : ∀ observation ∈ o.ledger.entries, observation.candidate.length = space.dimension
  indexed : o.ledger.Indexed

variable {space : Space Double} {config : OptimizerConfig}

theorem reached_start (space : Space Double) (s : σ) (config : OptimizerConfig) :
    Reached space config (start space s config) :=
  ⟨rfl, rfl, by simp [start, Ledger.empty], Ledger.indexed_empty⟩

namespace Reached

variable {o next : Optimizer σ}

/-- Recording points of the space's dimension keeps the invariant. -/
theorem recorded (h : Reached space config o) {evaluated : List (Candidate × Float)}
    (hdimension : ∀ p ∈ evaluated, p.1.length = space.dimension) :
    Reached space config (o.recorded evaluated) := by
  refine ⟨h.space_eq, h.config_eq, ?_, h.indexed.extend _⟩
  intro observation hmem
  rw [entries_recorded] at hmem
  obtain hmem | hmem := List.mem_append.mp hmem
  · exact h.dimension observation hmem
  · obtain ⟨p, hp, rfl⟩ := List.mem_map.mp hmem
    exact hdimension p hp

theorem observe (h : Reached space config o) {candidates : List Candidate} {values : List Float}
    {r : Except TuneError Unit} (hobserve : o.observe candidates values = (r, next)) :
    Reached space config next := by
  cases observes_of_observe hobserve with
  | refused => exact h
  | recorded _ hdimension _ =>
    apply h.recorded
    intro p hp
    rw [← h.space_eq]
    exact hdimension p.1 (List.of_mem_zip hp).1

variable [Surrogate σ]

theorem suggest (h : Reached space config o) {size : Nat}
    {r : Except (Halt TuneError) (List Candidate)} (hsuggest : o.suggest size = (r, next)) :
    Reached space config next := by
  obtain ⟨hspace, hconfig, hledger⟩ := (suggests_of_suggest hsuggest).frame
  refine ⟨hspace.trans h.space_eq, hconfig.trans h.config_eq, ?_, ?_⟩
  · rw [hledger]
    exact h.dimension
  · rw [hledger]
    exact h.indexed

/-- Every candidate that is suggested has a coordinate for each parameter. -/
theorem length_of_mem_suggest (h : Reached space config o) {size : Nat} {batch : List Candidate}
    (hsuggest : o.suggest size = (.ok batch, next)) :
    ∀ candidate ∈ batch, candidate.length = space.dimension := by
  intro candidate hcandidate
  by_cases hledger : o.ledger.entries = []
  · obtain ⟨-, hinitial⟩ | ⟨hne, -⟩ := suggested_cases hsuggest
    · have hlength := length_of_mem_initialBatch hinitial candidate hcandidate
      rwa [h.space_eq] at hlength
    · exact absurd hledger hne
  · obtain ⟨pool, g, hpool, hbatch⟩ := mem_drawPool_of_suggest hledger hsuggest
    rw [h.space_eq] at hpool
    exact length_of_mem_drawPool hledger h.dimension hpool candidate (hbatch candidate hcandidate)

theorem perform (h : Reached space config o) (call : Call) :
    Reached space config (o.perform call).2 := by
  cases call with
  | suggest size => exact h.suggest (r := (o.suggest size).1) rfl
  | observe candidates values => exact h.observe (r := (o.observe candidates values).1) rfl

theorem after (h : Reached space config o) (calls : List Call) : Reached space config (o.after calls) :=
  invariant_after (fun _ call ho => ho.perform call) h calls

end Reached

variable [Surrogate σ]

theorem reached_after (space : Space Double) (s : σ) (config : OptimizerConfig) (calls : List Call) :
    Reached space config ((start space s config).after calls) :=
  (reached_start space s config).after calls

end Optimizer

end DelayTuning
