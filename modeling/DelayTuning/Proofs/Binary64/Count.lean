import DelayTuning.Proofs.Binary64.NotANumber

/-!
# Rounding to counts

A double that is rounded to a count goes to the nearest integer, and a half goes upward. What is below zero or no
number gives zero, and what is too large gives the largest count.

## Main definitions

- `RoundsToCount`: the count of a double

## Main statements

- `roundHalfUp_eq`: rounding in whole numbers is rounding of the exact value
- `roundsToCount_roundToNat`: every double is rounded in this way
-/

namespace DelayTuning

open Float.Model Float.Model.UnpackedFloat

/-- The count of a double. -/
structure RoundsToCount (x : Float) (n : ℕ) : Prop where
  of_isNaN : x.isNaN = true → n = 0
  of_isFinite : x.isFinite = true → n = min ⌊exactValue x + 1 / 2⌋₊ maxCount
  of_infinite : x.isNaN = false → x.isFinite = false → n = if x < 0.0 then 0 else maxCount

theorem roundHalfUp_eq (m : ℕ) (e : ℤ) : roundHalfUp m e = ⌊(m : ℚ) * 2 ^ e + 1 / 2⌋₊ := by
  rw [roundHalfUp]
  split
  · next hwhole =>
    obtain ⟨k, rfl⟩ := Int.eq_ofNat_of_zero_le hwhole
    have hvalue : (m : ℚ) * 2 ^ (k : ℤ) = ((m * 2 ^ k : ℕ) : ℚ) := by
      rw [zpow_natCast]
      push_cast
      rfl
    rw [hvalue, Int.toNat_natCast, Nat.pow_eq, eq_comm, Nat.floor_eq_iff (by positivity)]
    constructor <;> linarith
  · next hfraction =>
    obtain ⟨k, rfl⟩ : ∃ k : ℕ, e = -k := ⟨e.natAbs, by omega⟩
    have hvalue : (m : ℚ) * 2 ^ (-k : ℤ) + 1 / 2 = ((2 * m + 2 ^ k : ℕ) : ℚ) / ((2 ^ (k + 1) : ℕ) : ℚ) := by
      rw [zpow_neg, zpow_natCast]
      push_cast
      field_simp
      ring
    rw [hvalue, Nat.floor_div_eq_div, neg_neg, Int.toNat_natCast, Nat.pow_eq, Nat.pow_eq]

theorem floor_eq_zero_of_nonpos {q : ℚ} (h : q ≤ 0) : ⌊q + 1 / 2⌋₊ = 0 := by
  rw [Nat.floor_eq_zero]
  linarith

/-- An infinity is below zero if it has a sign. -/
theorem lt_zero_iff_of_unpack_infinity {x : Float} {s : Sign} (h : x.toModel.unpack = .infinity s) :
    x < 0.0 ↔ isNegative s = true := by
  have hzero : (0.0 : Float).toModel.unpack = .zero .positive := rfl
  rw [float_lt_iff, h, hzero]
  cases s <;> decide

theorem roundsToCount_roundToNat (x : Float) : RoundsToCount x (roundToNat x) := by
  have hfloat := Binary64.ofFloat_eq x
  refine ⟨?_, ?_, ?_⟩
  · intro hnan
    rw [unpack_of_isNaN hnan] at hfloat
    rw [roundToNat, hfloat]
    rfl
  · intro hfinite
    obtain ⟨negative, m, e, hx⟩ : ∃ negative m e, Binary64.ofFloat x = .finite negative m e := by
      obtain ⟨s, hunpack⟩ | ⟨s, m, e, hpos, hunpack⟩ := unpack_cases_of_isFinite hfinite <;>
        rw [hunpack] at hfloat <;> exact ⟨_, _, _, hfloat⟩
    have hvalue : exactValue x = if negative then -((m : ℚ) * 2 ^ e) else (m : ℚ) * 2 ^ e := by
      rw [exactValue, hx, Binary64.value]
    have hnonneg : (0 : ℚ) ≤ m * 2 ^ e := mul_nonneg (Nat.cast_nonneg m) (two_zpow_pos e).le
    simp only [roundToNat, hx]
    cases negative with
    | true =>
      rw [hvalue, if_pos rfl, if_pos rfl, floor_eq_zero_of_nonpos (neg_nonpos.mpr hnonneg), Nat.zero_min]
    | false =>
      simp only [hvalue, Bool.false_eq_true, if_false, roundHalfUp_eq]
  · intro hnumber hinfinite
    obtain ⟨s, hunpack⟩ := unpack_infinity_of_isNaN_eq_false hnumber hinfinite
    rw [hunpack] at hfloat
    simp only [roundToNat, hfloat, Binary64.ofUnpacked, lt_zero_iff_of_unpack_infinity hunpack]

end DelayTuning
