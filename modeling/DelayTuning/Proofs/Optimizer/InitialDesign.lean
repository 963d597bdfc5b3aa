import DelayTuning.Proofs.Optimizer.Step
import DelayTuning.Proofs.Space.Bounds
import DelayTuning.Proofs.Surrogate.Basic
import DelayTuning.Space.Delay

/-!
# The first batch of a search

A space is refused for bounds that are not finite or not in order, but not for a width that is too large to
be a number. On an empty ledger such a width makes the difference: without it every batch is drawn and lies
within the bounds, up to the rounding of the Latin hypercube, with it the uniform design has no draw and the
Latin hypercube has no point within the bounds.

## Main statements

- `Optimizer.suggest_initial`: the first batch of every search
-/

namespace DelayTuning

theorem isSome_drawUniform_iff {s : Space Double} {count : Nat} (hcount : 0 < count) (g : Generator) :
    (drawUniform s count g).1.isSome = true ↔ s.HasFiniteWidths := by
  constructor
  · intro hsome
    obtain ⟨points, hpoints⟩ := Option.isSome_iff_exists.mp hsome
    obtain ⟨n, rfl⟩ := Nat.exists_eq_succ_of_ne_zero hcount.ne'
    obtain ⟨first, tail, hfirst, -, -⟩ := exists_cons_of_drawEach? hpoints
    rw [← s.isSome_uniform_iff g, hfirst, Option.isSome_some]
  · intro hwidths
    exact isSome_drawEach? (fun _ _ g => (s.isSome_uniform_iff g).mpr hwidths) g

theorem validate_of_drawUniform {s : Space Double} {count : Nat} {g : Generator}
    {points : List Candidate} (h : (drawUniform s count g).1 = some points) :
    ∀ c ∈ points, s.validate c = true :=
  forall_mem_of_drawEach? (fun _ _ _ _ hx => Space.validate_of_uniform hx) h

namespace Optimizer

variable {σ : Type}

theorem initialBatch_uniform {o : Optimizer σ} {size : Nat}
    (hdesign : o.config.initialDesign = .uniform) (hsize : 0 < size) :
    (o.space.HasFiniteWidths → ∃ batch, (o.initialBatch size).1 = .ok batch ∧
      ∀ c ∈ batch, o.space.validate c = true) ∧
    (¬ o.space.HasFiniteWidths → (o.initialBatch size).1 = .error .unboundedDraw) := by
  have hiff := isSome_drawUniform_iff (s := o.space) hsize o.generator
  simp only [initialBatch, hdesign]
  cases hdraw : drawUniform o.space size o.generator with
  | mk result g =>
    rw [hdraw] at hiff
    cases result with
    | some points =>
      have hwidths := hiff.mp rfl
      have hvalid := validate_of_drawUniform (congrArg Prod.fst hdraw)
      exact ⟨fun _ => ⟨points, rfl, hvalid⟩, fun hinfinite => absurd hwidths hinfinite⟩
    | none =>
      have hinfinite : ¬ o.space.HasFiniteWidths := fun hwidths => Bool.false_ne_true (hiff.mpr hwidths)
      exact ⟨fun hwidths => absurd hwidths hinfinite, fun _ => rfl⟩

theorem initialBatch_latinHypercube {o : Optimizer σ} (size : Nat)
    (hdesign : o.config.initialDesign = .latinHypercube) :
    (o.initialBatch size).1 = .ok (o.space.latinHypercube size o.generator).1 := by
  simp only [initialBatch, hdesign]

variable [Surrogate σ]

theorem suggest_eq_initialBatch {o : Optimizer σ} {size : Nat} (hsize : Proper size)
    (hledger : o.ledger.isEmpty = true) : o.suggest size = o.initialBatch size := by
  rw [suggest, if_neg hsize.1, if_neg (not_lt.mpr hsize.2), if_pos hledger]

/-- As long as nothing has been observed, a request for a batch of admissible size is answered by so many
candidates, unless a width is infinite. They lie within the bounds, except that the Latin hypercube may put a
coordinate at the lower bound plus the width where this is beyond the upper bound. If a width is infinite the
uniform design breaks off, and the Latin hypercube gives candidates that are all out of bounds. -/
theorem suggest_initial {o : Optimizer σ} {size : Nat} (hledger : o.ledger.isEmpty = true)
    (hpos : 0 < size) (hmax : size ≤ maxBatchSize) :
    (o.space.HasFiniteWidths → ∃ batch, (o.suggest size).1 = .ok batch ∧ batch.length = size ∧
      ∀ c ∈ batch, o.space.Spans c ∧
        ((o.config.initialDesign = .latinHypercube → ∀ p ∈ o.space.parameters, p.Reachable) →
          o.space.validate c = true)) ∧
    (¬ o.space.HasFiniteWidths → match o.config.initialDesign with
      | .uniform => (o.suggest size).1 = .error .unboundedDraw
      | .latinHypercube => ∃ batch, (o.suggest size).1 = .ok batch ∧ batch.length = size ∧
          ∀ c ∈ batch, o.space.validate c = false) := by
  rw [suggest_eq_initialBatch ⟨hpos.ne', hmax⟩ hledger]
  have hlength : ∀ {batch}, (o.initialBatch size).1 = .ok batch → batch.length = size := by
    intro batch hbatch
    exact length_of_initialBatch (Prod.ext hbatch rfl : o.initialBatch size = (.ok batch, _))
  cases hdesign : o.config.initialDesign with
  | uniform =>
    obtain ⟨hfinite, hinfinite⟩ := initialBatch_uniform hdesign hpos
    refine ⟨?_, hinfinite⟩
    intro hwidths
    obtain ⟨batch, hbatch, hvalid⟩ := hfinite hwidths
    refine ⟨batch, hbatch, hlength hbatch, ?_⟩
    intro c hc
    exact ⟨Space.spans_of_validate (hvalid c hc), fun _ => hvalid c hc⟩
  | latinHypercube =>
    have hbatch := initialBatch_latinHypercube size hdesign
    constructor
    · intro hwidths
      refine ⟨_, hbatch, hlength hbatch, ?_⟩
      intro c hc
      have hspans := Space.spans_latinHypercube hwidths (hmax.trans_lt (by decide)) o.generator c hc
      exact ⟨hspans, fun hreach => Space.validate_of_spans hwidths (hreach rfl) hspans⟩
    · intro hinfinite
      exact ⟨_, hbatch, hlength hbatch,
        Space.validate_latinHypercube_of_infinite hinfinite size o.generator⟩

/-- The delay parameters have finite widths that do not lead beyond the upper bounds. -/
theorem delaySpace_suggest_initial :
    ∃ batch, ((start delaySpace IndifferentModel.indifferent .standard).suggest 8).1 = .ok batch ∧
      batch.length = 8 ∧ ∀ c ∈ batch, delaySpace.validate c = true := by
  have hreach : ∀ p ∈ delaySpace.parameters, p.Reachable := by decide +kernel
  obtain ⟨batch, hbatch, hlength, hcandidates⟩ :=
    (suggest_initial (o := start delaySpace IndifferentModel.indifferent .standard) rfl
      (by decide : 0 < 8) (by decide)).1 (by decide +kernel)
  exact ⟨batch, hbatch, hlength, fun c hc => (hcandidates c hc).2 fun _ => hreach⟩

/-! ### A space with an infinite width -/

theorem wellFormed_wide : WellFormed [(⟨"x", -1e308, 1e308⟩ : Parameter Double)] :=
  (fault?_eq_none_iff _).mp (by decide +kernel)

def wideSpace : Space Double := ⟨_, wellFormed_wide⟩

/-- In a space that is not refused the uniform design breaks off, and the candidate of the Latin hypercube is
out of bounds. -/
theorem wideSpace_suggest_initial :
    ((start wideSpace IndifferentModel.indifferent
      { OptimizerConfig.standard with initialDesign := .uniform }).suggest 1).1 =
        .error .unboundedDraw ∧
    ((start wideSpace IndifferentModel.indifferent .standard).suggest 1).1.toOption.map
      (fun batch => batch.map wideSpace.validate) = some [false] := by
  decide +kernel

end Optimizer

end DelayTuning
