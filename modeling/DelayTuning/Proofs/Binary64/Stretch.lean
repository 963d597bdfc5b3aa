import DelayTuning.Proofs.Binary64.Arithmetic

/-!
# Stretching a number of the unit interval between two bounds

A random number of the unit interval is multiplied by the width of an interval and moved to its lower
bound. The width is a rounded difference, so it can be larger than the distance of the bounds. But a
product that is smaller than the width is not larger than the distance either, because no double lies
between the two; so only the number one itself can lead beyond the upper bound.

## Main statements

- `exactValue_le_of_lt_width`: what is smaller than the width is not larger than the distance
- `stretch_bounds`: a product with a number of the unit interval lies between zero and the width
- `stretch_le_distance`: a number that is well below one is not stretched over the distance
- `between_of_roundsTo`: what is moved by no more than the distance stays within the bounds
-/

namespace DelayTuning

/-! ### The distance of two bounds -/

section Distance

variable {lo hi : Float}

theorem exactValue_width_nonneg (hlo : lo.isFinite = true) (hhi : hi.isFinite = true)
    (h : exactValue lo ≤ exactValue hi) (hw : (hi - lo).isFinite = true) :
    0 ≤ exactValue (hi - lo) := by
  have hzero : (0.0 : Float).isFinite = true := by decide
  rw [← exactValue_zero, ← le_iff_exactValue_le hzero hw]
  refine (roundsTo_sub hhi hlo).le_of_exactValue_le hzero ?_
  rw [exactValue_zero]
  linarith

/-- What is smaller than the width is not larger than the distance. -/
theorem exactValue_le_of_lt_width {y : Float} (hlo : lo.isFinite = true) (hhi : hi.isFinite = true)
    (hy : y.isFinite = true) (hw : (hi - lo).isFinite = true)
    (h : exactValue y < exactValue (hi - lo)) : exactValue y ≤ exactValue hi - exactValue lo := by
  by_contra hlt
  have hle := (roundsTo_sub hhi hlo).le_of_le_exactValue hy (not_le.mp hlt).le
  rw [le_iff_exactValue_le hw hy] at hle
  exact absurd h (not_lt.mpr hle)

/-- A width that is not normal is the distance. -/
theorem exactValue_width_of_lt (hlo : lo.isFinite = true) (hhi : hi.isFinite = true)
    (h : exactValue lo ≤ exactValue hi) (hw : (hi - lo).isFinite = true)
    (hsmall : exactValue (hi - lo) < 2 ^ 52 * 2 ^ (-1074 : ℤ)) :
    exactValue (hi - lo) = exactValue hi - exactValue lo := by
  obtain ⟨i, hi'⟩ := exists_exactValue_eq_mul hhi
  obtain ⟨j, hj⟩ := exists_exactValue_eq_mul hlo
  have hpos := two_zpow_pos (-1074)
  have hround := roundsTo_sub hhi hlo
  have hij : j ≤ i := by
    rw [hi', hj] at h
    exact_mod_cast le_of_mul_le_mul_right h hpos
  have hnat : (((i - j).toNat : ℕ) : ℚ) = i - j := by
    exact_mod_cast Int.toNat_of_nonneg (by omega : 0 ≤ i - j)
  have hdistance : exactValue hi - exactValue lo = ((i - j).toNat : ℕ) * 2 ^ (-1074 : ℤ) := by
    rw [hi', hj, hnat, sub_mul]
  -- a distance of at most 53 bits is a double, and a longer one is not rounded to a small width
  by_cases hfits : (i - j).toNat < 2 ^ 53
  · obtain ⟨f, hf, hvalue⟩ := exists_exactValue_eq hfits (e := -1074) (by decide) (by decide)
    rw [hdistance, ← hvalue] at hround ⊢
    exact (hround.exactValue_eq hf).2
  · obtain ⟨f, hf, hvalue⟩ :=
      exists_exactValue_eq (m := 2 ^ 52) (e := -1074) (by decide) (by decide) (by decide)
    have hbelow : f ≤ hi - lo := by
      refine hround.le_of_exactValue_le hf ?_
      rw [hdistance, hvalue]
      gcongr
      omega
    rw [le_iff_exactValue_le hf hw, hvalue] at hbelow
    rw [Nat.cast_pow, Nat.cast_ofNat] at hbelow
    exact absurd hsmall (not_lt.mpr hbelow)

end Distance

/-! ### Stretched numbers of the unit interval -/

section Stretch

variable {lo hi t : Float}

theorem stretch_bounds {w : Float} (ht : t.isFinite = true) (hw : w.isFinite = true)
    (ht0 : 0 ≤ exactValue t) (ht1 : exactValue t ≤ 1) (hw0 : 0 ≤ exactValue w) :
    (t * w).isFinite = true ∧ 0 ≤ exactValue (t * w) ∧ exactValue (t * w) ≤ exactValue w := by
  have hround := roundsTo_mul ht hw
  have hzero : (0.0 : Float).isFinite = true := by decide
  have hlow : exactValue 0.0 ≤ exactValue t * exactValue w := by
    rw [exactValue_zero]
    exact mul_nonneg ht0 hw0
  have hbounds := hround.bounds hzero hw hlow (mul_le_of_le_one_left hw0 ht1)
  rwa [exactValue_zero] at hbounds

/-- A number that is below one by the last place at least is not stretched over the distance. -/
theorem stretch_le_distance (hlo : lo.isFinite = true) (hhi : hi.isFinite = true)
    (h : exactValue lo ≤ exactValue hi) (hw : (hi - lo).isFinite = true) (ht : t.isFinite = true)
    (ht0 : 0 ≤ exactValue t) (ht1 : exactValue t ≤ 1 - 1 / 2 ^ 52) :
    exactValue (t * (hi - lo)) ≤ exactValue hi - exactValue lo := by
  have hw0 := exactValue_width_nonneg hlo hhi h hw
  have hone : exactValue t ≤ 1 := ht1.trans (by norm_num)
  obtain ⟨hfinite, -, hle⟩ := stretch_bounds ht hw ht0 hone hw0
  obtain ⟨m, e, hnormal, hlarge, habs⟩ := exists_normalized_abs hw
  rw [abs_of_nonneg hw0] at habs
  have hpos := two_zpow_pos e
  by_cases hleading : 2 ^ 52 ≤ m
  · -- the double below the width is not below the product
    obtain ⟨d, hd, hvalue⟩ :=
      exists_exactValue_eq (m := m - 1) (by have := hnormal.mantissa_lt; omega) hnormal.least_le hlarge
    have hcast : ((m - 1 : ℕ) : ℚ) = m - 1 := by
      rw [Nat.cast_sub (by omega), Nat.cast_one]
    have hm : (2 : ℚ) ^ 52 ≤ m := by exact_mod_cast hleading
    have hproduct : exactValue t * exactValue (hi - lo) ≤ exactValue d := by
      rw [habs, hvalue, hcast, ← mul_assoc]
      gcongr
      calc exactValue t * m ≤ (1 - 1 / 2 ^ 52) * m := by gcongr
        _ ≤ m - 1 := by linarith
    have hbelow := (roundsTo_mul ht hw).le_of_le_exactValue hd hproduct
    rw [le_iff_exactValue_le hfinite hd] at hbelow
    refine exactValue_le_of_lt_width hlo hhi hfinite hw (hbelow.trans_lt ?_)
    rw [habs, hvalue, hcast]
    gcongr
    linarith
  · have hleast : e = -1074 := hnormal.leading.resolve_left hleading
    have hm : (m : ℚ) < 2 ^ 52 := by exact_mod_cast not_le.mp hleading
    have hsmall : exactValue (hi - lo) < 2 ^ 52 * 2 ^ (-1074 : ℤ) := by
      rw [habs, hleast]
      gcongr
    rw [← exactValue_width_of_lt hlo hhi h hw hsmall]
    exact hle

/-- What is moved by no more than the distance stays within the bounds. -/
theorem between_of_roundsTo {y c : Float} (hlo : lo.isFinite = true) (hhi : hi.isFinite = true)
    (hy0 : 0 ≤ exactValue y) (hy : exactValue y ≤ exactValue hi - exactValue lo)
    (hc : RoundsTo (exactValue lo + exactValue y) c) : lo ≤ c ∧ c ≤ hi :=
  ⟨hc.le_of_exactValue_le hlo (by linarith), hc.le_of_le_exactValue hhi (by linarith)⟩

end Stretch

end DelayTuning
