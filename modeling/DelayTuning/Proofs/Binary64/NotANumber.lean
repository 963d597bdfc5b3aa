import DelayTuning.Proofs.Binary64.Arithmetic

/-!
# Doubles that are no NaN

Rounding never gives a NaN, and a sum gives one only if a summand is a NaN or both are infinite. What is no
NaN can be compared with every finite double.

## Main statements

- `RoundsTo.isNaN_eq_false`, `RoundsToNearest.isNaN_eq_false`: a rounded number is no NaN
- `isNaN_add_eq_false`, `isNaN_finite_add_eq_false`: sums with a finite summand
- `isNaN_add_of_isNaN_right`: sums with a NaN
- `le_of_not_lt_of_isFinite`, `le_of_not_gt_of_isFinite`: comparisons with a finite double
-/

namespace DelayTuning

open Float.Model Float.Model.UnpackedFloat

section Order

variable {x y f : Float}

theorem unpack_of_isNaN (h : x.isNaN = true) : x.toModel.unpack = .notANumber := by
  have hunpack : x.toModel.unpack.isNaN = true := h
  cases hx : x.toModel.unpack with
  | notANumber => rfl
  | infinity s => simp [hx, UnpackedFloat.isNaN] at hunpack
  | zero s => simp [hx, UnpackedFloat.isNaN] at hunpack
  | finite s m e hpos => simp [hx, UnpackedFloat.isNaN] at hunpack

theorem compare_notANumber (u : UnpackedFloat) :
    UnpackedFloat.compare u .notANumber = none ∧ UnpackedFloat.compare .notANumber u = none := by
  cases u <;> exact ⟨rfl, rfl⟩

/-- A NaN compares with nothing. -/
theorem isNaN_eq_false_of_le (h : x ≤ y) : x.isNaN = false ∧ y.isNaN = false := by
  rw [float_le_iff] at h
  constructor
  · by_contra hx
    rw [unpack_of_isNaN (Bool.eq_true_of_not_eq_false hx), (compare_notANumber _).2] at h
    cases h
  · by_contra hy
    rw [unpack_of_isNaN (Bool.eq_true_of_not_eq_false hy), (compare_notANumber _).1] at h
    cases h

theorem isNaN_eq_false_of_lt (h : x < y) : x.isNaN = false ∧ y.isNaN = false := by
  apply isNaN_eq_false_of_le
  rw [float_le_iff, (float_lt_iff x y).mp h]
  rfl

theorem isNaN_eq_false_of_isFinite (hf : f.isFinite = true) : f.isNaN = false :=
  (isNaN_eq_false_of_le ((le_iff_exactValue_le hf hf).mpr le_rfl)).1

theorem unpack_infinity_of_isNaN_eq_false (hx : x.isNaN = false) (hinfinite : x.isFinite = false) :
    ∃ s, x.toModel.unpack = .infinity s := by
  refine (unpack_cases_of_not_isFinite hinfinite).resolve_left ?_
  intro hnan
  have hself : x.toModel.unpack.isNaN = false := hx
  rw [hnan] at hself
  cases hself

theorem le_of_not_lt_of_isFinite (hf : f.isFinite = true) (hx : x.isNaN = false) (h : ¬ x < f) :
    f ≤ x := by
  by_cases hfinite : x.isFinite = true
  · rw [lt_iff_exactValue_lt hfinite hf, not_lt] at h
    exact (le_iff_exactValue_le hf hfinite).mpr h
  obtain ⟨s, hs⟩ := unpack_infinity_of_isNaN_eq_false hx (Bool.eq_false_of_not_eq_true hfinite)
  cases s with
  | positive => exact le_of_unpack_infinity hf hs
  | negative =>
    refine absurd ?_ h
    rw [float_lt_iff, hs]
    obtain ⟨t, ht⟩ | ⟨t, m, e, hpos, ht⟩ := unpack_cases_of_isFinite hf <;> rw [ht] <;> rfl

theorem le_of_not_gt_of_isFinite (hf : f.isFinite = true) (hx : x.isNaN = false) (h : ¬ f < x) :
    x ≤ f := by
  by_cases hfinite : x.isFinite = true
  · rw [lt_iff_exactValue_lt hf hfinite, not_lt] at h
    exact (le_iff_exactValue_le hfinite hf).mpr h
  obtain ⟨s, hs⟩ := unpack_infinity_of_isNaN_eq_false hx (Bool.eq_false_of_not_eq_true hfinite)
  cases s with
  | negative => exact infinity_le_of_unpack hf hs
  | positive =>
    refine absurd ?_ h
    rw [float_lt_iff, hs]
    obtain ⟨t, ht⟩ | ⟨t, m, e, hpos, ht⟩ := unpack_cases_of_isFinite hf <;> rw [ht] <;> rfl

end Order

/-! ### Results of operations -/

section Operations

variable {x y : Float}

theorem RoundsTo.isNaN_eq_false {v : ℚ} (h : RoundsTo v x) : x.isNaN = false := by
  obtain ⟨hlow, hhigh⟩ := h 0.0 (by decide)
  obtain hle | hle := le_total (exactValue 0.0) v
  · exact (isNaN_eq_false_of_le (hlow hle)).2
  · exact (isNaN_eq_false_of_le (hhigh hle)).1

theorem RoundsToNearest.isNaN_eq_false {v : ℚ} (h : RoundsToNearest v x) : x.isNaN = false := by
  by_cases hfinite : x.isFinite = true
  · exact isNaN_eq_false_of_isFinite hfinite
  · have hparts := h.infinite (Bool.eq_false_of_not_eq_true hfinite)
    by_contra hnan
    rw [Binary64.ofFloat_eq, unpack_of_isNaN (Bool.eq_true_of_not_eq_false hnan)] at hparts
    cases hparts

theorem isNaN_packed_infinity (s : Sign) : (packed (.infinity s)).isNaN = false := by
  cases s <;> decide

theorem isNaN_add_of_isNaN_right (hy : y.isNaN = true) : (x + y).isNaN = true := by
  have habsorbs : UnpackedFloat.add Format.binary64 x.toModel.unpack .notANumber = .notANumber := by
    cases x.toModel.unpack <;> rfl
  rw [add_eq_packed, unpack_of_isNaN hy, habsorbs]
  decide

theorem isNaN_add_eq_false (hx : x.isNaN = false) (hy : y.isFinite = true) :
    (x + y).isNaN = false := by
  by_cases hfinite : x.isFinite = true
  · exact (roundsTo_add hfinite hy).isNaN_eq_false
  obtain ⟨s, hs⟩ := unpack_infinity_of_isNaN_eq_false hx (Bool.eq_false_of_not_eq_true hfinite)
  rw [add_eq_packed, hs]
  obtain ⟨t, ht⟩ | ⟨t, m, e, hpos, ht⟩ := unpack_cases_of_isFinite hy
  · rw [ht]
    exact isNaN_packed_infinity s
  · rw [ht]
    exact isNaN_packed_infinity s

theorem isNaN_finite_add_eq_false (hx : x.isFinite = true) (hy : y.isNaN = false) :
    (x + y).isNaN = false := by
  by_cases hfinite : y.isFinite = true
  · exact (roundsTo_add hx hfinite).isNaN_eq_false
  obtain ⟨s, hs⟩ := unpack_infinity_of_isNaN_eq_false hy (Bool.eq_false_of_not_eq_true hfinite)
  rw [add_eq_packed, hs]
  obtain ⟨t, ht⟩ | ⟨t, m, e, hpos, ht⟩ := unpack_cases_of_isFinite hx
  · rw [ht]
    exact isNaN_packed_infinity s
  · rw [ht]
    exact isNaN_packed_infinity s

end Operations

end DelayTuning
