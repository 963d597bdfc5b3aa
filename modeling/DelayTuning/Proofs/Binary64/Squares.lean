import DelayTuning.Ledger
import DelayTuning.Point
import DelayTuning.Proofs.Binary64.NotANumber

/-!
# Sums of squares

A sum of squares of doubles is never negative, whatever is rounded, overflows or is a NaN. So of squared distances
those that are numbers are finite or the positive infinity, and they are ordered as the numbers they stand for
with an infinity above all of them.

## Main definitions

- `IsSize`: a double that is a NaN or at least zero
- `extendedValue`: the number of a double, or the infinity

## Main statements

- `isSize_squaredDistance`: squared distances
- `IsSize.lt_infinity_iff`: the sizes that are finite
- `le_iff_extendedValue_le`, `lt_iff_extendedValue_lt`: the order of sizes
-/

namespace DelayTuning

open Float.Model Float.Model.UnpackedFloat

/-- A double that is at least zero unless it is a NaN. -/
def IsSize (d : Float) : Prop :=
  d.isNaN = false → 0.0 ≤ d

variable {d e x y : Float}

/-! ### The order of sizes -/

theorem unpack_infinity : infinity.toModel.unpack = .infinity .positive := by
  rfl

/-- What is at least zero is finite or the positive infinity. -/
theorem unpack_of_nonneg (h : 0.0 ≤ d) (hinfinite : d.isFinite = false) :
    d.toModel.unpack = .infinity .positive := by
  obtain ⟨s, hs⟩ := unpack_infinity_of_isNaN_eq_false (isNaN_eq_false_of_le h).2 hinfinite
  cases s with
  | positive => exact hs
  | negative =>
    rw [float_le_iff, hs] at h
    cases h

/-- The number of a finite double; everything else counts as the infinity. -/
def extendedValue (d : Float) : WithTop ℚ :=
  if d.isFinite then exactValue d else ⊤

theorem extendedValue_of_isFinite (h : d.isFinite = true) : extendedValue d = exactValue d :=
  if_pos h

theorem extendedValue_of_not_isFinite (h : d.isFinite = false) : extendedValue d = ⊤ :=
  if_neg (by rw [h]; exact Bool.false_ne_true)

/-- A finite double is less than the infinity. -/
theorem lt_of_unpack_infinity (hx : x.isFinite = true) (hy : y.toModel.unpack = .infinity .positive) :
    x < y ∧ ¬ y ≤ x := by
  rw [float_lt_iff, float_le_iff, hy]
  obtain ⟨s, hx⟩ | ⟨s, m, e, hpos, hx⟩ := unpack_cases_of_isFinite hx
  · rw [hx]
    exact ⟨rfl, Bool.false_ne_true⟩
  · rw [hx]
    exact ⟨rfl, Bool.false_ne_true⟩

section Order

variable (hd : 0.0 ≤ d) (he : 0.0 ≤ e)

include hd he

theorem le_iff_extendedValue_le : d ≤ e ↔ extendedValue d ≤ extendedValue e := by
  cases hfd : d.isFinite with
  | true =>
    rw [extendedValue_of_isFinite hfd]
    cases hfe : e.isFinite with
    | true => rw [extendedValue_of_isFinite hfe, WithTop.coe_le_coe, le_iff_exactValue_le hfd hfe]
    | false =>
      rw [extendedValue_of_not_isFinite hfe]
      exact iff_of_true (le_of_unpack_infinity hfd (unpack_of_nonneg he hfe)) le_top
  | false =>
    rw [extendedValue_of_not_isFinite hfd, top_le_iff]
    have hinfinite := unpack_of_nonneg hd hfd
    cases hfe : e.isFinite with
    | true =>
      rw [extendedValue_of_isFinite hfe]
      exact iff_of_false (lt_of_unpack_infinity hfe hinfinite).2 WithTop.coe_ne_top
    | false =>
      rw [extendedValue_of_not_isFinite hfe, float_le_iff, hinfinite, unpack_of_nonneg he hfe]
      exact iff_of_true rfl rfl

theorem lt_iff_extendedValue_lt : d < e ↔ extendedValue d < extendedValue e := by
  cases hfd : d.isFinite with
  | true =>
    rw [extendedValue_of_isFinite hfd]
    cases hfe : e.isFinite with
    | true => rw [extendedValue_of_isFinite hfe, WithTop.coe_lt_coe, lt_iff_exactValue_lt hfd hfe]
    | false =>
      rw [extendedValue_of_not_isFinite hfe]
      exact iff_of_true (lt_of_unpack_infinity hfd (unpack_of_nonneg he hfe)).1 (WithTop.coe_lt_top _)
  | false =>
    rw [extendedValue_of_not_isFinite hfd]
    refine iff_of_false ?_ not_top_lt
    have hinfinite := unpack_of_nonneg hd hfd
    rw [float_lt_iff, hinfinite]
    cases hfe : e.isFinite with
    | true =>
      obtain ⟨s, hue⟩ | ⟨s, m, k, hpos, hue⟩ := unpack_cases_of_isFinite hfe <;> rw [hue] <;>
        exact fun h => by cases h
    | false =>
      rw [unpack_of_nonneg he hfe]
      exact fun h => by cases h

end Order

/-- The sizes that are finite. -/
theorem IsSize.lt_infinity_iff (h : IsSize d) : d < infinity ↔ d.isFinite = true := by
  constructor
  · intro hlt
    by_contra hinfinite
    have hd := unpack_of_nonneg (h (isNaN_eq_false_of_lt hlt).1) (Bool.eq_false_of_not_eq_true hinfinite)
    rw [float_lt_iff, hd, unpack_infinity] at hlt
    cases hlt
  · exact fun hfinite => (lt_of_unpack_infinity hfinite unpack_infinity).1

/-! ### Squares and sums -/

theorem isSize_mul_self (x : Float) : IsSize (x * x) := by
  intro hnumber
  cases hx : x.isFinite with
  | true =>
    refine (roundsTo_mul hx hx).le_of_exactValue_le (by decide) ?_
    rw [exactValue_zero]
    exact mul_self_nonneg _
  | false =>
    obtain hux | ⟨s, hux⟩ := unpack_cases_of_not_isFinite hx <;> rw [mul_eq_packed, hux] at hnumber ⊢
    · have hnan : (packed .notANumber).isNaN = true := by decide
      change (packed .notANumber).isNaN = false at hnumber
      rw [hnan] at hnumber
      cases hnumber
    · cases s <;> decide

theorem isNaN_add_of_isNaN_left (hx : x.isNaN = true) : (x + y).isNaN = true := by
  have habsorbs : UnpackedFloat.add Format.binary64 .notANumber y.toModel.unpack = .notANumber := by
    cases y.toModel.unpack <;> rfl
  rw [add_eq_packed, unpack_of_isNaN hx, habsorbs]
  decide

theorem IsSize.add (hx : IsSize x) (hy : IsSize y) : IsSize (x + y) := by
  intro hnumber
  have hx0 : 0.0 ≤ x := hx (by
    by_contra hnan
    rw [isNaN_add_of_isNaN_left (Bool.eq_true_of_not_eq_false hnan)] at hnumber
    cases hnumber)
  have hy0 : 0.0 ≤ y := hy (by
    by_contra hnan
    rw [isNaN_add_of_isNaN_right (Bool.eq_true_of_not_eq_false hnan)] at hnumber
    cases hnumber)
  have hinfinity : 0.0 ≤ packed (.infinity .positive) := by decide
  cases hfx : x.isFinite with
  | true =>
    cases hfy : y.isFinite with
    | true =>
      rw [le_iff_exactValue_le (by decide) hfx, exactValue_zero] at hx0
      rw [le_iff_exactValue_le (by decide) hfy, exactValue_zero] at hy0
      refine (roundsTo_add hfx hfy).le_of_exactValue_le (by decide) ?_
      rw [exactValue_zero]
      exact add_nonneg hx0 hy0
    | false =>
      rw [add_eq_packed, unpack_of_nonneg hy0 hfy]
      obtain ⟨s, hux⟩ | ⟨s, m, k, hpos, hux⟩ := unpack_cases_of_isFinite hfx <;> rw [hux] <;>
        exact hinfinity
  | false =>
    rw [add_eq_packed, unpack_of_nonneg hx0 hfx]
    cases hfy : y.isFinite with
    | true =>
      obtain ⟨s, huy⟩ | ⟨s, m, k, hpos, huy⟩ := unpack_cases_of_isFinite hfy <;> rw [huy] <;>
        exact hinfinity
    | false =>
      rw [unpack_of_nonneg hy0 hfy]
      exact hinfinity

theorem isSize_foldl_add {xs : List Float} (h : ∀ x ∈ xs, IsSize x) {total : Float} (htotal : IsSize total) :
    IsSize (xs.foldl (fun total x => total + x) total) := by
  induction xs generalizing total with
  | nil => exact htotal
  | cons x rest ih =>
    obtain ⟨hx, hrest⟩ := List.forall_mem_cons.mp h
    exact ih hrest (htotal.add hx)

/-- A squared distance is a NaN or at least zero. -/
theorem isSize_squaredDistance (a b : Point Float) : IsSize (Point.squaredDistance a b) := by
  have hzero : IsSize (-0.0) := fun _ => by decide
  refine isSize_foldl_add ?_ hzero
  intro x hx
  obtain ⟨i, hi, rfl⟩ := List.mem_iff_getElem.mp hx
  rw [List.getElem_zipWith]
  exact isSize_mul_self _

end DelayTuning
