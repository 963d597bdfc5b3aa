import DelayTuning.Proofs.Binary64.NotANumber
import DelayTuning.Proofs.Space.Bounds

/-!
# Moving a coordinate into the bounds

A coordinate that is no NaN lies within the bounds once it has been moved there, also when it was infinite.
A NaN is kept, and it lies within no bounds.

## Main statements

- `contains_clamp`, `clamp_of_isNaN`: where a coordinate is moved
- `Space.validate_iff_getElem?`: a point within bounds, coordinate by coordinate
-/

namespace DelayTuning

section Coordinate

variable {p : Parameter Double} {x : Double}

theorem Parameter.Bounded.contains_upper (h : p.Bounded) : p.contains p.upper = true := by
  rw [contains_iff, le_iff_exactValue_le h.lower_isFinite h.upper_isFinite,
    le_iff_exactValue_le h.upper_isFinite h.upper_isFinite]
  exact ⟨h.exactValue_le, le_rfl⟩

theorem contains_clamp (hp : p.Bounded) (hx : x.toFloat.isNaN = false) :
    p.contains (Scalar.clamp p.lower p.upper x) = true := by
  rw [Scalar.clamp]
  split
  · exact hp.contains_lower
  next hlower =>
  split
  · exact hp.contains_upper
  · next hupper =>
    rw [Parameter.contains_iff]
    exact ⟨le_of_not_lt_of_isFinite hp.lower_isFinite hx hlower,
      le_of_not_gt_of_isFinite hp.upper_isFinite hx hupper⟩

theorem isNaN_eq_false_of_contains (h : p.contains x = true) : x.toFloat.isNaN = false :=
  (isNaN_eq_false_of_le (Parameter.contains_iff.mp h).1).2

/-- A NaN is not below anything, so it stays where it is. -/
theorem clamp_of_isNaN (hx : x.toFloat.isNaN = true) (lower upper : Double) :
    Scalar.clamp lower upper x = x := by
  have hbelow : ¬ x < lower := by
    intro hlt
    rw [(isNaN_eq_false_of_lt hlt).1] at hx
    cases hx
  have habove : ¬ upper < x := by
    intro hlt
    rw [(isNaN_eq_false_of_lt hlt).2] at hx
    cases hx
  rw [Scalar.clamp, if_neg hbelow, if_neg habove]

end Coordinate

namespace Space

theorem validate_iff_getElem? {α : Type} [Scalar α] {s : Space α} {x : Point α} :
    s.validate x = true ↔ x.length = s.dimension ∧
      ∀ (i : ℕ) (p : Parameter α) (c : α), s.parameters[i]? = some p → x[i]? = some c →
        p.contains c = true := by
  rw [validate_iff, List.forall₂_iff_get, dimension, eq_comm]
  refine and_congr_right ?_
  intro hlength
  constructor
  · intro h i p c hp hc
    obtain ⟨hi, rfl⟩ := List.getElem?_eq_some_iff.mp hp
    obtain ⟨hi', rfl⟩ := List.getElem?_eq_some_iff.mp hc
    exact h i hi hi'
  · intro h i hi hi'
    exact h i _ _ (List.getElem?_eq_getElem hi) (List.getElem?_eq_getElem hi')

theorem isNaN_eq_false_of_validate {s : Space Double} {x : Candidate} (h : s.validate x = true) :
    ∀ c ∈ x, c.toFloat.isNaN = false := by
  intro c hc
  obtain ⟨hlength, hcontains⟩ := validate_iff_getElem?.mp h
  obtain ⟨i, hi⟩ := List.mem_iff_getElem?.mp hc
  obtain ⟨hlt, -⟩ := List.getElem?_eq_some_iff.mp hi
  rw [hlength] at hlt
  exact isNaN_eq_false_of_contains
    (hcontains i _ c (List.getElem?_eq_getElem (l := s.parameters) hlt) hi)

end Space

end DelayTuning
