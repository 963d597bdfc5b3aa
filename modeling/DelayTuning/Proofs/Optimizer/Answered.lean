import DelayTuning.Proofs.Optimizer.InitialDesign
import DelayTuning.Proofs.Optimizer.Refusal

/-!
# When a request is answered

In a space of finite widths no draw breaks off. So a search with a Gaussian process answers every request of
admissible size, unless the kernel matrix of what it has observed has no factor.

## Main definitions

- `Optimizer.Unfit`: the model cannot be fit on what has been observed

## Main statements

- `Optimizer.exists_suggest_of_not_proper`: sizes that are always refused
- `Optimizer.suggest_ne_unboundedDraw`: no draw breaks off
- `Optimizer.Informed.suggest_outcomes`: a request is answered, or the model cannot be fit
-/

namespace DelayTuning

namespace Optimizer

section Draws

variable {σ : Type} [Surrogate σ]

/-- A size that is out of range is refused in every state. -/
theorem exists_suggest_of_not_proper (o : Optimizer σ) {size : ℕ} (hsize : ¬ Proper size) :
    ∃ fault, o.suggest size = (.error (.refused (.invalidRequest fault)), o) := by
  by_cases hempty : size = 0
  · exact ⟨_, if_pos hempty⟩
  · have hlarge : maxBatchSize < size := by
      by_contra hle
      exact hsize ⟨hempty, Nat.le_of_not_lt hle⟩
    exact ⟨_, (if_neg hempty).trans (if_pos hlarge)⟩

theorem isSome_drawPool {space : Space Double} (hwidths : space.HasFiniteWidths)
    (config : OptimizerConfig) (ledger : Ledger) (size : ℕ) (g : Generator) :
    (drawPool space config ledger size g).1.isSome = true := by
  simp only [drawPool, Option.isSome_map]
  exact isSome_drawEach? (fun _ _ g => (space.isSome_uniform_iff g).mpr hwidths) _

/-- With finite widths no draw breaks off. -/
theorem suggest_ne_unboundedDraw {o : Optimizer σ} (hwidths : o.space.HasFiniteWidths) (size : ℕ) :
    (o.suggest size).1 ≠ .error .unboundedDraw := by
  have hsuggests := suggests_suggest o size
  intro hdraw
  rw [hdraw] at hsuggests
  generalize hr : (.error .unboundedDraw : Except (Halt TuneError) (List Candidate)) = r at hsuggests
  generalize (o.suggest size).2 = next at hsuggests
  cases hsuggests with
  | empty => cases hr
  | oversized => cases hr
  | initial hsize hledger =>
    cases hdesign : o.config.initialDesign with
    | latinHypercube => cases hr.trans (initialBatch_latinHypercube size hdesign)
    | uniform =>
      obtain ⟨batch, hbatch, -⟩ :=
        (initialBatch_uniform hdesign (Nat.pos_of_ne_zero hsize.1)).1 hwidths
      cases hr.trans hbatch
  | unfit => cases hr
  | undrawn hsize hledger hrefresh hpool =>
    have hsome := isSome_drawPool hwidths o.config o.ledger size o.generator
    rw [hpool] at hsome
    cases hsome
  | unscored => cases hr
  | miscounted => cases hr
  | chosen => cases hr

end Draws

/-- The kernel matrix of the observations has no factor, so the model cannot be fit on them. -/
structure Unfit (o : Optimizer GaussianProcess) : Prop where
  observed : o.ledger.entries ≠ []
  refresh : o.refresh = (.error (.surrogate (.notPositiveDefinite o.count)), o)

namespace Informed

variable {o next : Optimizer GaussianProcess} {size : ℕ}

/-- A kernel matrix without a factor is only reported by a fit. -/
theorem unfit_of_suggest (h : Informed o) {n : ℕ}
    (hsuggest : o.suggest size = (.error (.refused (.surrogate (.notPositiveDefinite n))), next)) :
    Unfit o := by
  have hsuggests := suggests_of_suggest hsuggest
  generalize hr : (.error (.refused (.surrogate (.notPositiveDefinite n))) :
    Except (Halt TuneError) (List Candidate)) = r at hsuggests
  cases hsuggests with
  | empty => cases hr
  | oversized => cases hr
  | initial => exact absurd hr.symm (initialBatch_ne_refused o size _)
  | unfit _ hledger hrefresh =>
    obtain ⟨hok, -⟩ | ⟨herror, rfl⟩ := h.refresh_cases hledger hrefresh
    · cases hok
    · rw [herror] at hrefresh
      exact ⟨hledger, hrefresh⟩
  | undrawn => cases hr
  | @unscored ready g pool e s _ hledger hrefresh hpool hscores =>
    obtain ⟨scores, hok, -⟩ := h.exists_scores hledger hrefresh hpool
    cases hscores.symm.trans (congrArg (·, ready.surrogate) hok)
  | miscounted => cases hr
  | chosen => cases hr

/-- A request of admissible size is answered, unless the model cannot be fit on what has been observed. -/
theorem suggest_outcomes (h : Informed o) (hwidths : o.space.HasFiniteWidths) (hsize : Proper size)
    {r : Except (Halt TuneError) (List Candidate)} (hsuggest : o.suggest size = (r, next)) :
    (r = .error (.refused (.surrogate (.notPositiveDefinite o.count))) ∧ next = o ∧ Unfit o) ∨
      ∃ batch, r = .ok batch ∧ Informed next := by
  obtain ⟨himproper, -⟩ | ⟨-, rfl, rfl⟩ | ⟨-, hnone, hnext⟩ := h.suggest_cases hsuggest
  · exact absurd hsize himproper
  · exact Or.inl ⟨rfl, rfl, h.unfit_of_suggest hsuggest⟩
  · cases r with
    | ok batch => exact Or.inr ⟨batch, rfl, hnext⟩
    | error halt =>
      cases halt with
      | refused e => exact absurd rfl (hnone e)
      | unboundedDraw => exact absurd (congrArg Prod.fst hsuggest) (suggest_ne_unboundedDraw hwidths size)

end Informed

end Optimizer

end DelayTuning
