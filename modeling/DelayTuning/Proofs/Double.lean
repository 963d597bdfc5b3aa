import DelayTuning.Ledger
import Mathlib

/-!
# Comparing doubles

Two doubles are equal if they are the same double or two zeros, and none of them is a NaN. So equality of
doubles, and of candidates coordinate by coordinate, is symmetric and transitive. It is not reflexive: a candidate
with a NaN is not equal to itself.

## Main statements

- `Double.beq_comm`, `Candidate.beq_comm`: equality is symmetric
- `Double.beq_trans`, `Candidate.beq_trans`: equality is transitive
-/

namespace DelayTuning

theorem float_beq_symm {x y : Float} (h : (x == y) = true) : (y == x) = true := by
  obtain ⟨hx, hy, hxy⟩ := Float.beq_iff_ne_nan_and_eq.mp h
  refine Float.beq_iff_ne_nan_and_eq.mpr ⟨hy, hx, ?_⟩
  obtain heq | ⟨hxZero, hyZero⟩ | ⟨hxZero, hyZero⟩ := hxy
  · exact Or.inl heq.symm
  · exact Or.inr (Or.inr ⟨hyZero, hxZero⟩)
  · exact Or.inr (Or.inl ⟨hyZero, hxZero⟩)

theorem float_beq_comm (x y : Float) : (x == y) = (y == x) :=
  Bool.eq_iff_iff.mpr ⟨float_beq_symm, float_beq_symm⟩

theorem float_beq_trans {x y z : Float} (h : (x == y) = true) (h' : (y == z) = true) : (x == z) = true := by
  obtain ⟨hx, -, hxy⟩ := Float.beq_iff_ne_nan_and_eq.mp h
  obtain ⟨-, hz, hyz⟩ := Float.beq_iff_ne_nan_and_eq.mp h'
  refine Float.beq_iff_ne_nan_and_eq.mpr ⟨hx, hz, ?_⟩
  grind

namespace Double

theorem beq_comm (x y : Double) : (x == y) = (y == x) :=
  float_beq_comm x.toFloat y.toFloat

theorem totalLe_refl (x : Double) : x.totalLe x = true := by
  simpa using x.totalLe_total x

theorem beq_trans {x y z : Double} (h : (x == y) = true) (h' : (y == z) = true) : (x == z) = true :=
  float_beq_trans h h'

end Double

namespace Candidate

theorem beq_comm (c d : Candidate) : (c == d) = (d == c) := by
  induction c generalizing d with
  | nil => cases d <;> rfl
  | cons x c ih =>
    cases d with
    | nil => rfl
    | cons y d =>
      rw [List.cons_beq_cons, List.cons_beq_cons, ih, Double.beq_comm]

theorem beq_trans {c d e : Candidate} (h : (c == d) = true) (h' : (d == e) = true) : (c == e) = true := by
  induction c generalizing d e with
  | nil =>
    cases d with
    | nil => exact h'
    | cons y d => cases h
  | cons x c ih =>
    cases d with
    | nil => cases h
    | cons y d =>
      cases e with
      | nil => cases h'
      | cons z e =>
        rw [List.cons_beq_cons, Bool.and_eq_true] at h h' ⊢
        exact ⟨Double.beq_trans h.1 h'.1, ih h.2 h'.2⟩

end Candidate

end DelayTuning
