import DelayTuning.Decimal.Read
import DelayTuning.Proofs.Binary64.NotANumber

/-!
# Decimals and the doubles nearest to them

The double that is made of decimal digits and a power of ten is the one nearest to their number. A number of at
most 53 bits is multiplied with or divided by one of the powers of ten that are doubles, and this is rounded
once. Otherwise the machine forms the exact product or quotient; where the power is so large or so small that
this is not worth while, the answer is known to be an infinity or a zero.

## Main statements

- `exactValue_powerOfTen`: powers of ten that are doubles
- `RoundsToNearest.neg`: the opposite number
- `roundsToNearest_ofScientific`: a decimal literal
- `roundsToNearest_nearestDouble`: digits with a sign and a power of ten
-/

namespace DelayTuning

open Float.Model Float.Model.UnpackedFloat

/-! ### Powers of ten -/

/-- An entry of the machine's table is a power of five that is moved to the left until its leading bit is set,
times a power of two. -/
theorem ofFloat_powerOfTen : ∀ e : Fin 23,
    Float.exactlyRepresentablePowersOfTen[e].isFinite = true ∧
      Binary64.ofFloat Float.exactlyRepresentablePowersOfTen[e] =
        .finite false (5 ^ (e : ℕ) * 2 ^ (52 - (5 ^ (e : ℕ)).log2))
          (e - (52 - (5 ^ (e : ℕ)).log2 : ℕ)) := by
  decide +kernel

theorem exactValue_powerOfTen (e : Fin 23) :
    Float.exactlyRepresentablePowersOfTen[e].isFinite = true ∧
      exactValue Float.exactlyRepresentablePowersOfTen[e] = 10 ^ (e : ℕ) := by
  obtain ⟨hfinite, hparts⟩ := ofFloat_powerOfTen e
  have hten : (10 : ℚ) ^ (e : ℕ) = 5 ^ (e : ℕ) * 2 ^ (e : ℕ) := by
    rw [← mul_pow]
    norm_num
  have htwo : ∀ k : ℕ, (2 : ℚ) ^ k * 2 ^ ((e : ℤ) - k) = 2 ^ (e : ℕ) := by
    intro k
    rw [← zpow_natCast, ← zpow_add₀ (by norm_num), add_sub_cancel, zpow_natCast]
  refine ⟨hfinite, ?_⟩
  rw [exactValue, hparts, Binary64.value, if_neg Bool.false_ne_true, hten,
    ← htwo (52 - (5 ^ (e : ℕ)).log2)]
  push_cast
  ring

theorem two_zpow_le_ten_zpow {e : ℤ} (he : 0 ≤ e) : (2 : ℚ) ^ e ≤ 10 ^ e := by
  obtain ⟨k, rfl⟩ := Int.eq_ofNat_of_zero_le he
  rw [zpow_natCast, zpow_natCast]
  gcongr
  norm_num

theorem ten_zpow_le_two_zpow {e : ℤ} (he : e ≤ 0) : (10 : ℚ) ^ e ≤ 2 ^ e := by
  have hopposite := two_zpow_le_ten_zpow (neg_nonneg.mpr he)
  rw [zpow_neg, zpow_neg] at hopposite
  exact (inv_le_inv₀ (two_zpow_pos e) (zpow_pos (by norm_num) e)).mp hopposite

/-! ### Numbers that are too large or too small -/

theorem roundsToNearest_infinity {v : ℚ} (hv : overflowBound ≤ v) :
    RoundsToNearest v (packed (.infinity .positive)) := by
  have hpos : 0 < v := overflowBound_pos.trans_le hv
  have hinfinite := isFinite_packed_infinity .positive
  refine ⟨iff_of_false ?_ ?_, ?_, ?_⟩
  · rw [hinfinite]
    exact Bool.false_ne_true
  · rw [abs_of_pos hpos]
    exact not_lt.mpr hv
  · intro hfinite
    rw [hinfinite] at hfinite
    cases hfinite
  · intro _
    rw [decide_eq_false (not_lt.mpr hpos.le)]
    rfl

/-- What lies closer to zero than half of the least double is rounded to zero. -/
theorem roundsToNearest_of_small {v : ℚ} (hv : 0 ≤ v) (hsmall : 2 * v < 2 ^ (-1074 : ℤ)) :
    RoundsToNearest v (packed (.zero .positive)) := by
  have hzero := isFinite_packed_zero .positive
  have hvalue := exactValue_packed_zero .positive
  have hbound : v < overflowBound := by
    have hone : (2 : ℚ) ^ (-1074 : ℤ) ≤ 1 := zpow_le_one_of_nonpos₀ (by norm_num) (by decide)
    have hlarge : (1 : ℚ) ≤ 2 ^ (971 : ℤ) := one_le_zpow₀ (by norm_num) (by decide)
    rw [overflowBound_eq]
    generalize (2 : ℚ) ^ (971 : ℤ) = top at hlarge
    linarith
  refine ⟨iff_of_true hzero ?_, ?_, ?_⟩
  · rw [abs_of_nonneg hv]
    exact hbound
  · intro _ f hf hne
    rw [hvalue] at hne ⊢
    obtain ⟨j, hj⟩ := exists_exactValue_eq_mul hf
    have hj0 : j ≠ 0 := by
      rintro rfl
      exact hne (by rw [hj, Int.cast_zero, zero_mul])
    have hsize : (2 : ℚ) ^ (-1074 : ℤ) ≤ |exactValue f| := by
      have hone : (1 : ℚ) ≤ |(j : ℚ)| := by exact_mod_cast Int.one_le_abs hj0
      rw [hj, abs_mul, abs_of_pos (two_zpow_pos (-1074))]
      exact le_mul_of_one_le_left (two_zpow_pos (-1074)).le hone
    have htriangle : |exactValue f| ≤ |exactValue f - v| + |v| := by
      have hsum : exactValue f = exactValue f - v + v := by ring
      conv_lhs => rw [hsum]
      exact abs_add_le _ _
    rw [abs_of_nonneg hv] at htriangle
    left
    rw [zero_sub, abs_neg, abs_of_nonneg hv]
    linarith
  · intro hinfinite
    rw [hzero] at hinfinite
    cases hinfinite

/-! ### Decimal literals -/

/-- The exact product with a power of ten. The digits are moved by 53 bits before, so that enough of them are
there to be rounded. -/
theorem rounded_mul_pow_ten {m : ℕ} (hm : 0 < m) (k : ℕ) (hpos : 0 < m <<< 53) (hpos' : 0 < 10 ^ k) :
    Rounded ((m : ℚ) * 10 ^ k) (packed (UnpackedFloat.mul Format.binary64
      (.finite .positive (m <<< 53) (-53) hpos) (.finite .positive (10 ^ k) 0 hpos'))) := by
  have hvalue : (m : ℚ) * (10 : ℚ) ^ k = applySign (.positive * .positive)
      ((((m <<< 53) * 10 ^ k : ℕ) : ℚ) * 2 ^ (-53 + 0 : ℤ)) := by
    change (m : ℚ) * 10 ^ k = (((m <<< 53) * 10 ^ k : ℕ) : ℚ) * 2 ^ (-53 : ℤ)
    rw [Nat.shiftLeft_eq]
    push_cast
    norm_num
    ring
  have hfine : 52 ≤ ((m <<< 53) * 10 ^ k).log2 := by
    rw [Nat.le_log2 (Nat.mul_pos hpos hpos').ne', Nat.shiftLeft_eq]
    calc 2 ^ 52 ≤ 1 * 2 ^ 53 * 1 := by decide
      _ ≤ m * 2 ^ 53 * 10 ^ k := Nat.mul_le_mul (Nat.mul_le_mul_right _ hm) hpos'
  rw [hvalue]
  exact Rounded.located _ (locates_exact _) (halves_exact _) (Or.inl hfine)

/-- The exact quotient by a power of ten. -/
theorem rounded_div_pow_ten {m : ℕ} (hpos : 0 < m) (k : ℕ) (hpos' : 0 < 10 ^ k) :
    Rounded ((m : ℚ) / 10 ^ k) (packed (UnpackedFloat.div Format.binary64
      (.finite .positive m 0 hpos) (.finite .positive (10 ^ k) 0 hpos'))) := by
  have hquotient := rounded_div_finite .positive .positive (e := 0) (f := 0) hpos hpos'
  rw [zpow_zero, mul_one, mul_one, Nat.cast_pow] at hquotient
  exact hquotient

/-- The machine's reading of a decimal through an exact product or quotient. -/
theorem roundsToNearest_unpacked_ofScientific (m : ℕ) (e : ℤ) :
    RoundsToNearest (m * 10 ^ e) (packed (UnpackedFloat.ofScientific Format.binary64 m e)) := by
  rw [UnpackedFloat.ofScientific]
  by_cases hm : m = 0
  · rw [dif_pos hm, hm, Nat.cast_zero, zero_mul]
    exact (Rounded.zero .positive).roundsToNearest
  have hpos : 0 < m := Nat.pos_of_ne_zero hm
  have hone : (1 : ℚ) ≤ m := by exact_mod_cast hpos
  have hten : (0 : ℚ) < 10 ^ e := zpow_pos (by norm_num) e
  rw [dif_neg hm]
  by_cases hlarge : e > 2 ^ Format.binary64.exponentBits
  · rw [if_pos hlarge]
    apply roundsToNearest_infinity
    change 2 ^ 11 < e at hlarge
    calc overflowBound ≤ 2 ^ (1024 : ℤ) := sub_le_self _ (pow_nonneg (by norm_num) 970)
      _ ≤ 2 ^ e := zpow_le_zpow_right₀ (by norm_num) (by omega)
      _ ≤ 10 ^ e := two_zpow_le_ten_zpow (by omega)
      _ ≤ m * 10 ^ e := le_mul_of_one_le_left hten.le hone
  rw [if_neg hlarge]
  by_cases hsmall : e < -((2 ^ Format.binary64.exponentBits : ℤ) + m.log2)
  · rw [if_pos hsmall]
    apply roundsToNearest_of_small
    · exact mul_nonneg (Nat.cast_nonneg m) hten.le
    · change e < -(2 ^ 11 + (m.log2 : ℤ)) at hsmall
      have hsize : (m : ℚ) < 2 ^ ((m.log2 : ℤ) + 1) := by
        have hlog : m < 2 ^ (m.log2 + 1) := Nat.lt_log2_self
        exact_mod_cast hlog
      have hpower : (10 : ℚ) ^ e ≤ 2 ^ e := ten_zpow_le_two_zpow (by omega)
      calc 2 * ((m : ℚ) * 10 ^ e) < 2 * (2 ^ ((m.log2 : ℤ) + 1) * 10 ^ e) := by gcongr
        _ ≤ 2 * (2 ^ ((m.log2 : ℤ) + 1) * 2 ^ e) := by gcongr
        _ = 2 ^ (1 + ((m.log2 : ℤ) + 1 + e)) := by
          rw [zpow_add₀ (by norm_num) 1, zpow_add₀ (by norm_num) _ e, zpow_one]
        _ ≤ 2 ^ (-1074 : ℤ) := zpow_le_zpow_right₀ (by norm_num) (by omega)
  rw [if_neg hsmall]
  by_cases hnonneg : 0 ≤ e
  · obtain ⟨k, rfl⟩ := Int.eq_ofNat_of_zero_le hnonneg
    rw [if_pos hnonneg, zpow_natCast]
    exact (rounded_mul_pow_ten hpos k _ _).roundsToNearest
  · obtain ⟨k, rfl⟩ : ∃ k : ℕ, e = -k := ⟨(-e).toNat, by omega⟩
    rw [if_neg hnonneg, zpow_neg, zpow_natCast, ← div_eq_mul_inv]
    simp only [neg_neg, Int.toNat_natCast]
    exact (rounded_div_pow_ten hpos k _).roundsToNearest

/-- A decimal literal is the double nearest to its number. -/
theorem roundsToNearest_ofScientific (m : ℕ) (negative : Bool) (e : ℕ) :
    RoundsToNearest (m * 10 ^ (if negative then -(e : ℤ) else e)) (Float.ofScientific m negative e) := by
  rw [Float.ofScientific]
  by_cases hfast : m < 2 ^ 53 ∧ e ≤ 22
  · obtain ⟨hword, hvalue⟩ := exactValue_toFloat hfast.1
    obtain ⟨hpower, hten⟩ := exactValue_powerOfTen ⟨e, by omega⟩
    rw [dif_pos hfast]
    cases negative with
    | false =>
      have hproduct := rounded_mul hword hpower
      rw [hvalue, hten] at hproduct
      exact hproduct.roundsToNearest
    | true =>
      have hquotient := rounded_div hword hpower (by rw [hten]; positivity)
      rw [hvalue, hten] at hquotient
      rw [if_pos rfl, zpow_neg, zpow_natCast, ← div_eq_mul_inv]
      exact hquotient.roundsToNearest
  · rw [dif_neg hfast]
    cases negative with
    | false => exact roundsToNearest_unpacked_ofScientific m e
    | true =>
      have hslow := roundsToNearest_unpacked_ofScientific m (Int.negOfNat e)
      rw [Int.negOfNat_eq] at hslow
      exact hslow

/-! ### Signs -/

theorem isFinite_neg (x : Float) : (-x).isFinite = x.isFinite := by
  cases hx : x.isFinite with
  | true => exact (exactValue_neg hx).1
  | false =>
    obtain hux | ⟨s, hux⟩ := unpack_cases_of_not_isFinite hx <;> rw [neg_eq_packed, hux]
    · exact isFinite_packed_notANumber
    · exact isFinite_packed_infinity (-s)

theorem HasEvenMantissa.neg {x : Float} (hx : x.isFinite = true) (h : HasEvenMantissa x) :
    HasEvenMantissa (-x) := by
  obtain ⟨negative, m, e, hparts, heven⟩ := h
  have hunpack := unpack_neg hx
  rw [Binary64.ofFloat_eq] at hparts
  obtain ⟨s, hux⟩ | ⟨s, n, q, hpos, hux⟩ := unpack_cases_of_isFinite hx <;> rw [hux] at hparts hunpack
  · refine ⟨isNegative (-s), 0, Binary64.minExponent, ?_, Even.zero⟩
    rw [Binary64.ofFloat_eq, hunpack]
    rfl
  · cases hparts
    refine ⟨isNegative (-s), m, e, ?_, heven⟩
    rw [Binary64.ofFloat_eq, hunpack]
    rfl

/-- The opposite of the nearest double is nearest to the opposite number. -/
theorem RoundsToNearest.neg {v : ℚ} {x : Float} (h : RoundsToNearest v x) : RoundsToNearest (-v) (-x) := by
  have hflip : ∀ a : ℚ, |(-a) - (-v)| = |a - v| := by
    intro a
    rw [neg_sub_neg, abs_sub_comm]
  refine ⟨?_, ?_, ?_⟩
  · rw [isFinite_neg, abs_neg]
    exact h.finite_iff
  · intro hfinite f hf hne
    rw [isFinite_neg] at hfinite
    obtain ⟨-, hx⟩ := exactValue_neg hfinite
    obtain ⟨hopposite, hvalue⟩ := exactValue_neg hf
    have hother : exactValue (-f) ≠ exactValue x := by
      rw [hvalue, Ne, neg_eq_iff_eq_neg, ← hx]
      exact hne
    have hf' : |exactValue (-f) - v| = |exactValue f - -v| := by
      rw [← hflip, hvalue, neg_neg]
    rw [hx, hflip, ← hf']
    exact (h.nearest hfinite (-f) hopposite hother).imp_right
      (fun htie => ⟨htie.1, htie.2.neg hfinite⟩)
  · intro hinfinite
    rw [isFinite_neg] at hinfinite
    have hparts := h.infinite hinfinite
    have hlarge : overflowBound ≤ |v| := by
      rw [← not_lt, ← h.finite_iff, hinfinite]
      exact Bool.false_ne_true
    have hv : v ≠ 0 := abs_pos.mp (overflowBound_pos.trans_le hlarge)
    rw [Binary64.ofFloat_eq] at hparts
    obtain hux | ⟨s, hux⟩ := unpack_cases_of_not_isFinite hinfinite <;> rw [hux] at hparts
    · cases hparts
    · have hsign : isNegative s = decide (v < 0) := by
        injection hparts
      have hopposite : isNegative (-s) = decide (-v < 0) := by
        obtain hneg | hpos := lt_or_gt_of_ne hv
        · rw [decide_eq_true hneg] at hsign
          rw [decide_eq_false (by linarith)]
          cases s
          · rfl
          · cases hsign
        · rw [decide_eq_false (not_lt.mpr hpos.le)] at hsign
          rw [decide_eq_true (by linarith)]
          cases s
          · cases hsign
          · rfl
      rw [Binary64.ofFloat_eq, neg_eq_packed, hux, ← hopposite]
      cases s <;> rfl

/-- Digits with a sign and a power of ten are read as the double nearest to their number. -/
theorem roundsToNearest_nearestDouble (negative : Bool) (digits : ℕ) (e : ℤ) :
    RoundsToNearest (if negative then -(digits * 10 ^ e) else digits * 10 ^ e)
      (nearestDouble negative digits e) := by
  have hsize := roundsToNearest_ofScientific digits (e < 0) e.natAbs
  have hexponent : (if decide (e < 0) = true then -(e.natAbs : ℤ) else e.natAbs) = e := by
    by_cases he : e < 0
    · rw [if_pos (decide_eq_true he)]
      omega
    · rw [if_neg (fun hlt => he (of_decide_eq_true hlt))]
      omega
  rw [hexponent] at hsize
  cases negative with
  | false => exact hsize
  | true => exact hsize.neg

end DelayTuning
