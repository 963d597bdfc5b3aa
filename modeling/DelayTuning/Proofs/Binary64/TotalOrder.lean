import DelayTuning.Proofs.Binary64.Value

/-!
# The total order of doubles

The total order compares the bits of two doubles and not the numbers they stand for. The bits of a double without a
sign grow with its number, so finite doubles are in the order of their numbers. Only the two zeros are different
doubles for one number, and of these the negative one comes first.

## Main statements

- `value_ofBits_lt`: doubles without a sign are in the order of their bits
- `le_of_totalLe`: the total order of finite doubles does not contradict the order of numbers
- `eq_or_zeros_of_exactValue_eq`: the doubles that stand for one number
-/

namespace DelayTuning

/-! ### Doubles without a sign -/

/-- Bits below those of the infinities are those of a finite double. They count the mantissas and exponents. -/
theorem exists_ofBits_eq {bits : ℕ} (h : bits < 2047 * 2 ^ 52) :
    ∃ m e, Binary64.ofBits bits = .finite false m e ∧ Normalized m e ∧
      (bits : ℤ) = m + (e + 1074) * 2 ^ 52 := by
  have hfraction : bits % 2 ^ 52 < 2 ^ 52 := Nat.mod_lt _ (by decide)
  have hfield : bits / 2 ^ 52 % 2 ^ 11 = bits / 2 ^ 52 := by omega
  have hsign : (bits / 2 ^ 63 % 2 == 1) = false := by
    rw [beq_eq_false_iff_ne]
    omega
  have hfinite : bits / 2 ^ 52 ≠ 2047 := by omega
  simp only [Binary64.ofBits, Nat.pow_eq, hfield, hsign, if_neg hfinite, Binary64.minExponent]
  by_cases hsubnormal : bits / 2 ^ 52 = 0
  · rw [if_pos hsubnormal]
    exact ⟨_, _, rfl, ⟨by omega, by omega, Or.inr rfl⟩, by omega⟩
  · rw [if_neg hsubnormal]
    exact ⟨_, _, rfl, ⟨by omega, by omega, Or.inl (by omega)⟩, by omega⟩

theorem value_ofBits_nonneg {bits : ℕ} (h : bits < 2047 * 2 ^ 52) : 0 ≤ (Binary64.ofBits bits).value := by
  obtain ⟨m, e, hbits, -, -⟩ := exists_ofBits_eq h
  rw [hbits]
  exact mul_nonneg (Nat.cast_nonneg m) (two_zpow_pos e).le

/-- Doubles without a sign are in the order of their bits. -/
theorem value_ofBits_lt {a b : ℕ} (hab : a < b) (hb : b < 2047 * 2 ^ 52) :
    (Binary64.ofBits a).value < (Binary64.ofBits b).value := by
  obtain ⟨m, e, ha, hm, hcount⟩ := exists_ofBits_eq (hab.trans hb)
  obtain ⟨n, f, hb, hn, hcount'⟩ := exists_ofBits_eq hb
  rw [ha, hb]
  change (m : ℚ) * 2 ^ e < n * 2 ^ f
  have hm' := hm.mantissa_lt
  have hn' := hn.mantissa_lt
  obtain hlt | rfl | hgt := lt_trichotomy e f
  · exact hm.lt_of_exponent_lt hn hlt
  · have hmn : (m : ℚ) < n := by
      exact_mod_cast (by omega : m < n)
    exact mul_lt_mul_of_pos_right hmn (two_zpow_pos e)
  · -- a larger exponent comes with a leading bit, which no smaller mantissa makes up for
    have hleading : 2 ^ 52 ≤ m := hm.leading.resolve_right (by have := hn.least_le; omega)
    omega

theorem value_ofBits_le {a b : ℕ} (hab : a ≤ b) (hb : b < 2047 * 2 ^ 52) :
    (Binary64.ofBits a).value ≤ (Binary64.ofBits b).value := by
  obtain rfl | hlt := hab.eq_or_lt
  · exact le_rfl
  · exact (value_ofBits_lt hlt hb).le

/-! ### The place of a finite double -/

theorem value_ofBits_add_sign {bits : ℕ} (h : bits < 2 ^ 63) :
    (Binary64.ofBits (bits + 2 ^ 63)).value = -(Binary64.ofBits bits).value := by
  have hfield : (bits + 2 ^ 63) / 2 ^ 52 % 2 ^ 11 = bits / 2 ^ 52 % 2 ^ 11 := by omega
  have hfraction : (bits + 2 ^ 63) % 2 ^ 52 = bits % 2 ^ 52 := by omega
  have hnegative : ((bits + 2 ^ 63) / 2 ^ 63 % 2 == 1) = true := by
    rw [beq_iff_eq]
    omega
  have hpositive : (bits / 2 ^ 63 % 2 == 1) = false := by
    rw [beq_eq_false_iff_ne]
    omega
  simp only [Binary64.ofBits, Nat.pow_eq, hfield, hfraction, hnegative, hpositive]
  split
  · split <;> exact neg_zero.symm
  · split <;> rfl

/-- A finite double has its place among the numbers without a sign, or it is the negative of one of them, and these
are counted downward. -/
theorem totalOrderKey_cases {x : Float} (hx : x.isFinite = true) :
    ∃ bits : ℕ, bits < 2047 * 2 ^ 52 ∧
      ((totalOrderKey x = bits ∧ exactValue x = (Binary64.ofBits bits).value) ∨
        (totalOrderKey x = -bits - 1 ∧ exactValue x = -(Binary64.ofBits bits).value)) := by
  have hlt : x.toBits.toNat < 2 ^ 64 := x.toBits.toNat_lt
  have hfield : x.toBits.toNat / 2 ^ 52 % 2 ^ 11 ≠ 2047 := by
    intro hinfinite
    obtain ⟨s, hunpack⟩ | ⟨s, m, e, hpos, hunpack⟩ := unpack_cases_of_isFinite hx <;>
      have hfloat := Binary64.ofFloat_eq x <;>
      rw [hunpack, Binary64.ofFloat] at hfloat <;>
      simp only [Binary64.ofBits, Nat.pow_eq, if_pos hinfinite, Binary64.ofUnpacked] at hfloat <;>
      split at hfloat <;> cases hfloat
  by_cases hsign : x.toBits.toNat < 2 ^ 63
  · refine ⟨x.toBits.toNat, by omega, Or.inl ⟨?_, rfl⟩⟩
    simp only [totalOrderKey, Nat.pow_eq, if_pos hsign]
  · refine ⟨x.toBits.toNat - 2 ^ 63, by omega, Or.inr ⟨?_, ?_⟩⟩
    · simp only [totalOrderKey, Nat.pow_eq, if_neg hsign]
      omega
    · rw [← value_ofBits_add_sign (by omega), Nat.sub_add_cancel (not_lt.mp hsign)]
      rfl

/-! ### The order of finite doubles -/

section Order

variable {x y : Float}

theorem exactValue_le_of_totalLe (hx : x.isFinite = true) (hy : y.isFinite = true)
    (h : totalLe x y = true) : exactValue x ≤ exactValue y := by
  obtain ⟨a, ha, hxCases⟩ := totalOrderKey_cases hx
  obtain ⟨b, hb, hyCases⟩ := totalOrderKey_cases hy
  have hkeys : totalOrderKey x ≤ totalOrderKey y := of_decide_eq_true h
  obtain ⟨hxKey, hxValue⟩ | ⟨hxKey, hxValue⟩ := hxCases <;>
    obtain ⟨hyKey, hyValue⟩ | ⟨hyKey, hyValue⟩ := hyCases <;>
    rw [hxKey, hyKey] at hkeys <;> rw [hxValue, hyValue]
  · exact value_ofBits_le (by omega) hb
  · omega
  · linarith [value_ofBits_nonneg ha, value_ofBits_nonneg hb]
  · exact neg_le_neg (value_ofBits_le (by omega) ha)

theorem le_of_totalLe (hx : x.isFinite = true) (hy : y.isFinite = true) (h : totalLe x y = true) : x ≤ y :=
  (le_iff_exactValue_le hx hy).mpr (exactValue_le_of_totalLe hx hy h)

/-- Only the zeros are different doubles for one number. -/
theorem eq_or_zeros_of_exactValue_eq (hx : x.isFinite = true) (hy : y.isFinite = true)
    (h : exactValue x = exactValue y) : x = y ∨ (x = 0.0 ∧ y = -0.0) ∨ (x = -0.0 ∧ y = 0.0) :=
  (Float.beq_iff_ne_nan_and_eq.mp ((beq_iff_exactValue_eq hx hy).mpr h)).2.2

theorem totalLe_refl (x : Float) : totalLe x x = true :=
  decide_eq_true le_rfl

theorem totalLe_total (x y : Float) : (totalLe x y || totalLe y x) = true := by
  rw [Bool.or_eq_true, totalLe, totalLe, decide_eq_true_iff, decide_eq_true_iff]
  exact le_total _ _

theorem totalLe_trans (x y z : Float) (hxy : totalLe x y = true) (hyz : totalLe y z = true) :
    totalLe x z = true :=
  decide_eq_true ((of_decide_eq_true hxy).trans (of_decide_eq_true hyz))

end Order

end DelayTuning
