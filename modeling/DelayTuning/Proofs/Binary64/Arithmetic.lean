import DelayTuning.Proofs.Binary64.Nearest

/-!
# The arithmetic of doubles

Sum, difference, product and quotient of finite doubles round the exact result. What is not finite stays
so in sums, in products and in quotients by itself.

## Main statements

- `roundsTo_add`, `roundsTo_sub`, `roundsTo_mul`, `roundsTo_div`: the four operations
- `rounded_mul`, `rounded_div`: products and quotients as they are rounded from their guard bits
- `exists_exactValue_eq`: which numbers are doubles
- `exactValue_ofNat`: integers below `2 ^ 53` are exact
- `eq_of_exactValue_eq`: a double other than a zero is determined by its number
-/

namespace DelayTuning

open Float.Model Float.Model.UnpackedFloat

theorem packed_unpack (x : Float) : packed x.toModel.unpack = x := by
  have hbits : UnpackedFloat.pack Format.binary64
      (UnpackedFloat.unpack Format.binary64 x.toModel.toBits.toBitVec) =
        x.toModel.toBits.toBitVec := pack_unpack_of_valid x.toModel.valid
  have htoBits : (packed x.toModel.unpack).toBits = x.toBits :=
    congrArg UInt64.ofBitVec hbits
  exact Float.toBits_inj.mp htoBits

/-- A mantissa moved to a smaller exponent stands for the same number. -/
theorem cast_apply_decreaseExponent (s : Sign) (m : ℕ) {e t : ℤ} (h : t ≤ e) :
    ((s.apply ((decreaseExponent m e t).1 : ℤ) : ℤ) : ℚ) * 2 ^ t = applySign s (m * 2 ^ e) := by
  have hshift : ((decreaseExponent m e t).1 : ℚ) * 2 ^ t = m * 2 ^ e := by
    rw [mul_two_zpow_of_le m h, ← Nat.shiftLeft_eq]
    rfl
  cases s
  · rw [applySign, ← hshift]
    simp [Sign.apply]
  · rw [applySign, ← hshift]
    simp [Sign.apply]

section Operations

variable {x y : Float}

theorem roundsTo_add (hx : x.isFinite = true) (hy : y.isFinite = true) :
    RoundsTo (exactValue x + exactValue y) (x + y) := by
  obtain ⟨s, hux⟩ | ⟨s, m, e, hpos, hux⟩ := unpack_cases_of_isFinite hx <;>
    obtain ⟨t, huy⟩ | ⟨t, n, f, hpos', huy⟩ := unpack_cases_of_isFinite hy
  · have hzero : ∃ u, x + y = packed (.zero u) := by
      rw [add_eq_packed, hux, huy]
      cases s <;> cases t <;> exact ⟨_, rfl⟩
    obtain ⟨u, hu⟩ := hzero
    rw [hu, exactValue_of_zero hux, exactValue_of_zero huy, add_zero, ← exactValue_packed_zero u]
    exact roundsTo_exactValue (isFinite_packed_zero u)
  · have hsame : x + y = y := by
      rw [add_eq_packed, hux, huy]
      exact (congrArg packed huy.symm).trans (packed_unpack y)
    rw [hsame, exactValue_of_zero hux, zero_add]
    exact roundsTo_exactValue hy
  · have hsame : x + y = x := by
      rw [add_eq_packed, hux, huy]
      exact (congrArg packed hux.symm).trans (packed_unpack x)
    rw [hsame, exactValue_of_zero huy, add_zero]
    exact roundsTo_exactValue hx
  · rw [add_eq_packed, exactValue_of_finite hux, exactValue_of_finite huy, hux, huy,
      ← cast_apply_decreaseExponent s m (min_le_left e f),
      ← cast_apply_decreaseExponent t n (min_le_right e f), ← add_mul, ← Int.cast_add]
    exact roundsTo_normalize _ _ _

theorem unpack_neg (hx : x.isFinite = true) :
    (-x).toModel.unpack = UnpackedFloat.neg x.toModel.unpack := by
  obtain ⟨s, hux⟩ | ⟨s, m, e, hpos, hux⟩ := unpack_cases_of_isFinite hx
  · rw [neg_eq_packed, hux]
    cases s <;> rfl
  · obtain ⟨hnormal, hlarge⟩ := normalized_of_unpack hux
    rw [neg_eq_packed, hux]
    exact unpack_packed_of_normalized (-s) hpos hnormal hlarge

/-- The negative of a finite double is exact. -/
theorem exactValue_neg (hx : x.isFinite = true) :
    (-x).isFinite = true ∧ exactValue (-x) = -exactValue x := by
  have hunpack := unpack_neg hx
  obtain ⟨s, hux⟩ | ⟨s, m, e, hpos, hux⟩ := unpack_cases_of_isFinite hx <;> rw [hux] at hunpack
  · refine ⟨congrArg UnpackedFloat.isFinite hunpack, ?_⟩
    rw [exactValue_of_zero hunpack, exactValue_of_zero hux, neg_zero]
  · refine ⟨congrArg UnpackedFloat.isFinite hunpack, ?_⟩
    rw [exactValue_of_finite hunpack, exactValue_of_finite hux]
    cases s
    · exact (neg_neg _).symm
    · rfl

theorem apply_neg (s : Sign) (k : ℤ) : (-s).apply k = -s.apply k := by
  cases s
  · exact (neg_neg k).symm
  · rfl

/-- The machine's difference is the sum with the negative. -/
theorem unpacked_sub_eq (u v : UnpackedFloat) :
    UnpackedFloat.sub Format.binary64 u v =
      UnpackedFloat.add Format.binary64 u (UnpackedFloat.neg v) := by
  cases u with
  | notANumber => rfl
  | infinity s => cases v <;> rfl
  | zero s => cases v <;> rfl
  | finite s m e hpos =>
    cases v with
    | notANumber => rfl
    | infinity t => rfl
    | zero t => rfl
    | finite t n f hpos' =>
      have hterms : s.apply ((decreaseExponent m e (min e f)).1 : ℤ) -
            t.apply ((decreaseExponent n f (min e f)).1 : ℤ) =
          s.apply ((decreaseExponent m e (min e f)).1 : ℤ) +
            (-t).apply ((decreaseExponent n f (min e f)).1 : ℤ) := by
        rw [sub_eq_add_neg, apply_neg]
      exact congrArg (fun k => UnpackedFloat.normalize Format.binary64 k (min e f) .positive) hterms

theorem roundsTo_sub (hx : x.isFinite = true) (hy : y.isFinite = true) :
    RoundsTo (exactValue x - exactValue y) (x - y) := by
  obtain ⟨hfinite, hvalue⟩ := exactValue_neg hy
  have hsub : x - y = x + -y := by
    rw [add_eq_packed, unpack_neg hy, ← unpacked_sub_eq, sub_eq_packed]
  rw [hsub, sub_eq_add_neg, ← hvalue]
  exact roundsTo_add hx hfinite

/-- A product of two mantissas is long enough to be rounded. -/
theorem le_log2_mul {m n : ℕ} {e f : ℤ} (hm : 0 < m) (hn : 0 < n) (h : Normalized m e)
    (h' : Normalized n f) : 52 ≤ (m * n).log2 ∨ e + f ≤ -1074 := by
  have hne : m * n ≠ 0 := (Nat.mul_pos hm hn).ne'
  obtain hleading | hleast := h.leading
  · exact Or.inl ((Nat.le_log2 hne).mpr (hleading.trans (Nat.le_mul_of_pos_right m hn)))
  obtain hleading' | hleast' := h'.leading
  · exact Or.inl ((Nat.le_log2 hne).mpr (hleading'.trans (Nat.le_mul_of_pos_left n hm)))
  · exact Or.inr (by omega)

theorem applySign_mul (s t : Sign) (a b : ℚ) :
    applySign (s * t) (a * b) = applySign s a * applySign t b := by
  cases s <;> cases t
  · exact (neg_mul_neg a b).symm
  · exact (neg_mul a b).symm
  · exact (mul_neg a b).symm
  · rfl

/-- The machine's product. -/
theorem rounded_mul (hx : x.isFinite = true) (hy : y.isFinite = true) :
    Rounded (exactValue x * exactValue y) (x * y) := by
  have hzero : ∀ u, x * y = packed (.zero u) → exactValue x * exactValue y = 0 →
      Rounded (exactValue x * exactValue y) (x * y) := by
    intro u hu hvalue
    rw [hu, hvalue]
    exact Rounded.zero u
  obtain ⟨s, hux⟩ | ⟨s, m, e, hpos, hux⟩ := unpack_cases_of_isFinite hx <;>
    obtain ⟨t, huy⟩ | ⟨t, n, f, hpos', huy⟩ := unpack_cases_of_isFinite hy
  · exact hzero (s * t) (by rw [mul_eq_packed, hux, huy]; rfl) (by rw [exactValue_of_zero hux, zero_mul])
  · exact hzero (s * t) (by rw [mul_eq_packed, hux, huy]; rfl) (by rw [exactValue_of_zero hux, zero_mul])
  · exact hzero (s * t) (by rw [mul_eq_packed, hux, huy]; rfl) (by rw [exactValue_of_zero huy, mul_zero])
  · have hproduct : (m : ℚ) * 2 ^ e * (n * 2 ^ f) = ((m * n : ℕ) : ℚ) * 2 ^ (e + f) := by
      rw [zpow_add₀ (by norm_num)]
      push_cast
      ring
    rw [mul_eq_packed, exactValue_of_finite hux, exactValue_of_finite huy, hux, huy, ← applySign_mul,
      hproduct]
    exact Rounded.located (s * t) (locates_exact _) (halves_exact _)
      (le_log2_mul hpos hpos' (normalized_of_unpack hux).1 (normalized_of_unpack huy).1)

theorem roundsTo_mul (hx : x.isFinite = true) (hy : y.isFinite = true) :
    RoundsTo (exactValue x * exactValue y) (x * y) :=
  (rounded_mul hx hy).roundsTo

/-- The integral quotient with the accuracy of its rest locates the exact quotient. -/
theorem locates_quotient (m : ℕ) {n : ℕ} (hn : 0 < n) :
    Locates (ExtendedMantissa.ofMantissaAndAccuracy (m / n) (accuracyOfFraction (m % n) n))
      ((m : ℚ) / n) := by
  have hnq : (0 : ℚ) < n := by exact_mod_cast hn
  have hdivide : (m : ℚ) = n * (m / n : ℕ) + (m % n : ℕ) := by
    exact_mod_cast (Nat.div_add_mod m n).symm
  have hrest : ((m % n : ℕ) : ℚ) < n := by exact_mod_cast Nat.mod_lt m hn
  have hrest' : (0 : ℚ) ≤ (m % n : ℕ) := Nat.cast_nonneg _
  refine ⟨?_, ?_, ?_⟩
  · rw [mantissa_ofMantissaAndAccuracy, le_div_iff₀ hnq]
    linarith
  · rw [mantissa_ofMantissaAndAccuracy, div_lt_iff₀ hnq]
    linarith
  · rw [mantissa_ofMantissaAndAccuracy, div_eq_iff hnq.ne', accuracyOfFraction]
    by_cases hzero : m % n = 0
    · rw [if_pos hzero]
      rw [hzero, Nat.cast_zero, add_zero] at hdivide
      exact ⟨fun _ => ⟨rfl, rfl⟩, fun _ => by rw [mul_comm]; exact hdivide⟩
    · rw [if_neg hzero]
      have hpos : (0 : ℚ) < (m % n : ℕ) := by exact_mod_cast Nat.pos_of_ne_zero hzero
      have hne : ¬ (m : ℚ) = (m / n : ℕ) * n := by
        intro heq
        linarith
      cases compare (2 * (m % n)) n <;> simp [hne, ExtendedMantissa.ofMantissaAndAccuracy]

/-- The rest of an integral quotient tells on which side of the middle the exact quotient lies. -/
theorem halves_quotient (m : ℕ) {n : ℕ} (hn : 0 < n) :
    Halves (ExtendedMantissa.ofMantissaAndAccuracy (m / n) (accuracyOfFraction (m % n) n))
      ((m : ℚ) / n) := by
  have hnq : (0 : ℚ) < n := by exact_mod_cast hn
  have hdivide : (m : ℚ) = n * (m / n : ℕ) + (m % n : ℕ) := by
    exact_mod_cast (Nat.div_add_mod m n).symm
  have hle : ((m / n : ℕ) : ℚ) + 1 / 2 ≤ m / n ↔ n ≤ 2 * (m % n) := by
    rw [le_div_iff₀ hnq, ← Nat.cast_le (α := ℚ)]
    push_cast
    constructor <;> intro h <;> linarith
  have heq : (m : ℚ) / n = ((m / n : ℕ) : ℚ) + 1 / 2 ↔ n = 2 * (m % n) := by
    rw [div_eq_iff hnq.ne', ← Nat.cast_inj (R := ℚ)]
    push_cast
    constructor <;> intro h <;> linarith
  refine ⟨?_, ?_⟩
  · rw [mantissa_ofMantissaAndAccuracy, hle, accuracyOfFraction]
    by_cases hzero : m % n = 0
    · rw [if_pos hzero]
      exact iff_of_false (by omega) Bool.false_ne_true
    · rw [if_neg hzero]
      cases hcompare : compare (2 * (m % n)) n with
      | lt => exact iff_of_false (not_le.mpr (compare_lt_iff_lt.mp hcompare)) Bool.false_ne_true
      | eq => exact iff_of_true (compare_eq_iff_eq.mp hcompare).ge rfl
      | gt => exact iff_of_true (compare_gt_iff_gt.mp hcompare).le rfl
  · rw [mantissa_ofMantissaAndAccuracy, heq, accuracyOfFraction]
    by_cases hzero : m % n = 0
    · rw [if_pos hzero]
      exact iff_of_false (by omega) (fun hbits => Bool.false_ne_true hbits.1)
    · rw [if_neg hzero]
      cases hcompare : compare (2 * (m % n)) n with
      | lt =>
        exact iff_of_false (compare_lt_iff_lt.mp hcompare).ne' (fun hbits => Bool.false_ne_true hbits.1)
      | eq => exact iff_of_true (compare_eq_iff_eq.mp hcompare).symm ⟨rfl, rfl⟩
      | gt =>
        exact iff_of_false (compare_gt_iff_gt.mp hcompare).ne (fun hbits => Bool.false_ne_true hbits.2.symm)

theorem applySign_div (s t : Sign) (a b : ℚ) :
    applySign (s / t) (a / b) = applySign s a / applySign t b := by
  cases s <;> cases t
  · exact (neg_div_neg_eq a b).symm
  · exact (neg_div b a).symm
  · exact (div_neg a).symm
  · rfl

/-- The machine's quotient of two numbers that have been taken apart. -/
theorem rounded_div_finite (s t : Sign) {m n : ℕ} {e f : ℤ} (hpos : 0 < m) (hpos' : 0 < n) :
    Rounded (applySign (s / t) (m * 2 ^ e / (n * 2 ^ f)))
      (packed (UnpackedFloat.div Format.binary64 (.finite s m e hpos) (.finite t n f hpos'))) := by
  -- the dividend is shifted until the quotient has 53 bits or the least exponent is reached
  obtain ⟨g, hg⟩ : ∃ g, g = min (e - f)
      (Format.binary64.targetExponent (totalExponent m e - totalExponent n f)) := ⟨_, rfl⟩
  obtain ⟨k, hk⟩ : ∃ k, k = (e - f - g).toNat := ⟨_, rfl⟩
  have hround : UnpackedFloat.div Format.binary64 (.finite s m e hpos) (.finite t n f hpos') =
      roundWithAccuracy Format.binary64 (s / t) ((m <<< k) / n) g
        (accuracyOfFraction ((m <<< k) % n) n) := by
    rw [hk, hg]
    rfl
  have htarget : Format.binary64.targetExponent (totalExponent m e - totalExponent n f) =
      max (((m.log2 : ℤ) + 1 + e) - ((n.log2 : ℤ) + 1 + f) - 53) (-1074) := rfl
  rw [htarget] at hg
  have hvalue : (m : ℚ) * 2 ^ e / (n * 2 ^ f) = ((m <<< k : ℕ) : ℚ) / n * 2 ^ g := by
    have he : e = k + g + f := by omega
    rw [he, zpow_add₀ (by norm_num), zpow_add₀ (by norm_num), zpow_natCast, Nat.shiftLeft_eq]
    have := two_zpow_pos f
    have hn : (n : ℚ) ≠ 0 := by exact_mod_cast hpos'.ne'
    push_cast
    field_simp
  have hfine : 52 ≤ ((m <<< k) / n).log2 ∨ g ≤ -1074 := by
    by_cases hleast : g ≤ -1074
    · exact Or.inr hleast
    · have hlog : n.log2 + 1 + 52 ≤ (m <<< k).log2 := by
        rw [log2_shiftLeft hpos.ne']
        omega
      have hm : m <<< k ≠ 0 := by
        rintro hzero
        rw [hzero] at hlog
        simp at hlog
      have hn : n ≤ 2 ^ (n.log2 + 1) := Nat.lt_log2_self.le
      have hlarge : 2 ^ 52 * n ≤ m <<< k := by
        calc 2 ^ 52 * n ≤ 2 ^ 52 * 2 ^ (n.log2 + 1) := Nat.mul_le_mul_left _ hn
          _ = 2 ^ (n.log2 + 1 + 52) := by rw [← pow_add, Nat.add_comm]
          _ ≤ 2 ^ (m <<< k).log2 := Nat.pow_le_pow_right (by decide) hlog
          _ ≤ m <<< k := Nat.log2_self_le hm
      have hquotient : 2 ^ 52 ≤ (m <<< k) / n := (Nat.le_div_iff_mul_le hpos').mpr hlarge
      exact Or.inl ((Nat.le_log2 (by omega)).mpr hquotient)
  rw [hround, hvalue]
  exact Rounded.located (s / t) (locates_quotient _ hpos') (halves_quotient _ hpos') hfine

/-- The machine's quotient. -/
theorem rounded_div (hx : x.isFinite = true) (hy : y.isFinite = true) (hne : exactValue y ≠ 0) :
    Rounded (exactValue x / exactValue y) (x / y) := by
  obtain ⟨t, huy⟩ | ⟨t, n, f, hpos', huy⟩ := unpack_cases_of_isFinite hy
  · exact absurd (exactValue_of_zero huy) hne
  obtain ⟨s, hux⟩ | ⟨s, m, e, hpos, hux⟩ := unpack_cases_of_isFinite hx
  · have hzero : x / y = packed (.zero (s / t)) := by
      rw [div_eq_packed, hux, huy]
      rfl
    rw [hzero, exactValue_of_zero hux, zero_div]
    exact Rounded.zero (s / t)
  · rw [div_eq_packed, exactValue_of_finite hux, exactValue_of_finite huy, hux, huy, ← applySign_div]
    exact rounded_div_finite s t hpos hpos'

theorem roundsTo_div (hx : x.isFinite = true) (hy : y.isFinite = true) (hne : exactValue y ≠ 0) :
    RoundsTo (exactValue x / exactValue y) (x / y) :=
  (rounded_div hx hy hne).roundsTo

end Operations

/-! ### Numbers that are doubles -/

/-- An integer of at most 53 bits times a power of two within range is a double. -/
theorem exists_exactValue_eq {m : ℕ} {e : ℤ} (hm : m < 2 ^ 53) (hleast : -1074 ≤ e) (hlarge : e ≤ 971) :
    ∃ f : Float, f.isFinite = true ∧ exactValue f = m * 2 ^ e := by
  by_cases hzero : m = 0
  · refine ⟨packed (.zero .positive), isFinite_packed_zero _, ?_⟩
    rw [exactValue_packed_zero, hzero, Nat.cast_zero, zero_mul]
  -- the mantissa is moved to the left until its first bit is set or the least exponent is reached
  obtain ⟨k, hk⟩ : ∃ k, k = min (52 - m.log2) (e + 1074).toNat := ⟨_, rfl⟩
  have hlog : m.log2 < 53 := (Nat.log2_lt hzero).mpr hm
  have hself : 2 ^ m.log2 ≤ m := Nat.log2_self_le hzero
  have hpos : 0 < m * 2 ^ k := Nat.mul_pos (Nat.pos_of_ne_zero hzero) (Nat.two_pow_pos k)
  have hlt : m * 2 ^ k < 2 ^ 53 := by
    calc m * 2 ^ k < 2 ^ (m.log2 + 1) * 2 ^ k :=
          Nat.mul_lt_mul_of_pos_right Nat.lt_log2_self (Nat.two_pow_pos k)
      _ = 2 ^ (m.log2 + 1 + k) := (pow_add 2 (m.log2 + 1) k).symm
      _ ≤ 2 ^ 53 := Nat.pow_le_pow_right (by decide) (by omega)
  have hleading : 2 ^ 52 ≤ m * 2 ^ k ∨ e - k = -1074 := by
    by_cases hreached : e - k = -1074
    · exact Or.inr hreached
    · refine Or.inl ?_
      have hsum : m.log2 + k = 52 := by omega
      calc 2 ^ 52 = 2 ^ m.log2 * 2 ^ k := by rw [← pow_add, hsum]
        _ ≤ m * 2 ^ k := Nat.mul_le_mul_right _ hself
  have hnormal : Normalized (m * 2 ^ k) (e - k) := ⟨hlt, by omega, hleading⟩
  have hunpack := unpack_packed_of_normalized .positive hpos hnormal (by omega)
  refine ⟨packed (.finite .positive (m * 2 ^ k) (e - k) hpos),
    isFinite_packed_of_normalized .positive hpos hnormal (by omega), ?_⟩
  have hk' : (e - (e - (k : ℤ))).toNat = k := by omega
  rw [exactValue_of_finite hunpack, applySign, mul_two_zpow_of_le m (by omega : e - k ≤ e), hk']

/-- Every finite double is a multiple of the least one. -/
theorem exists_exactValue_eq_mul {x : Float} (hx : x.isFinite = true) :
    ∃ j : ℤ, exactValue x = j * 2 ^ (-1074 : ℤ) := by
  obtain ⟨m, e, hnormal, -, habs⟩ := exists_normalized_abs hx
  rw [mul_two_zpow_of_le m hnormal.least_le] at habs
  obtain hvalue | hvalue := (abs_eq (by positivity)).mp habs
  · exact ⟨_, by rw [hvalue, Int.cast_natCast]⟩
  · exact ⟨-_, by rw [hvalue, Int.cast_neg, Int.cast_natCast, neg_mul]⟩

theorem exactValue_zero : exactValue 0.0 = 0 :=
  exactValue_of_zero (s := .positive) rfl

theorem exactValue_one : exactValue 1.0 = 1 := by
  have hone : Binary64.ofFloat 1.0 = .finite false (2 ^ 52) (-52) := by decide
  rw [exactValue, hone]
  norm_num [Binary64.value]

theorem exactValue_toFloat {n : ℕ} (hn : n < 2 ^ 53) :
    n.toUInt64.toFloat.isFinite = true ∧ exactValue n.toUInt64.toFloat = n := by
  obtain ⟨f, hf, hvalue⟩ := exists_exactValue_eq hn (e := 0) (by decide) (by decide)
  rw [zpow_zero, mul_one] at hvalue
  have hword : n.toUInt64.toNat = n := by
    rw [Nat.toUInt64, UInt64.toNat_ofNat']
    omega
  have hround : RoundsTo (((n.toUInt64.toNat : ℤ) : ℚ) * 2 ^ (0 : ℤ)) n.toUInt64.toFloat :=
    roundsTo_normalize _ 0 .positive
  rw [hword, zpow_zero, mul_one, Int.cast_natCast, ← hvalue] at hround
  obtain ⟨hfinite, hexact⟩ := hround.exactValue_eq hf
  exact ⟨hfinite, hexact.trans hvalue⟩

theorem exactValue_ofNat {n : ℕ} (hn : n < 2 ^ 53) :
    (Float.ofNat n).isFinite = true ∧ exactValue (Float.ofNat n) = n := by
  obtain ⟨hword, hvalue⟩ := exactValue_toFloat hn
  -- a literal is the machine's integer times a power of ten, here the first one
  have hmul : Float.ofNat n = n.toUInt64.toFloat * 1.0 := by
    change Float.ofScientific n false 0 = _
    rw [Float.ofScientific, dif_pos ⟨hn, by decide⟩]
    rfl
  have hproduct := roundsTo_mul hword (y := 1.0) (by decide)
  rw [exactValue_one, mul_one, ← hmul] at hproduct
  obtain ⟨hfinite, hexact⟩ := hproduct.exactValue_eq hword
  exact ⟨hfinite, hexact.trans hvalue⟩

/-- A double other than a zero is determined by its number. -/
theorem eq_of_exactValue_eq {x y : Float} (hx : x.isFinite = true) (hy : y.isFinite = true)
    (hvalue : exactValue x = exactValue y) (hne : exactValue x ≠ 0) : x = y := by
  obtain ⟨s, hux⟩ | ⟨s, m, e, hpos, hux⟩ := unpack_cases_of_isFinite hx
  · exact absurd (exactValue_of_zero hux) hne
  obtain ⟨t, huy⟩ | ⟨t, n, f, hpos', huy⟩ := unpack_cases_of_isFinite hy
  · exact absurd (hvalue.trans (exactValue_of_zero huy)) hne
  rw [exactValue_of_finite hux, exactValue_of_finite huy] at hvalue
  have hm : (0 : ℚ) < m * 2 ^ e := mul_pos (by exact_mod_cast hpos) (two_zpow_pos e)
  have hn : (0 : ℚ) < n * 2 ^ f := mul_pos (by exact_mod_cast hpos') (two_zpow_pos f)
  have hsame : s = t ∧ (m : ℚ) * 2 ^ e = n * 2 ^ f := by
    cases s <;> cases t <;> simp only [applySign] at hvalue
    · exact ⟨rfl, neg_inj.mp hvalue⟩
    · linarith
    · linarith
    · exact ⟨rfl, hvalue⟩
  obtain ⟨rfl, hsize⟩ := hsame
  have hcompare := compare_normalized (normalized_of_unpack hux).1 (normalized_of_unpack huy).1
  rw [compare_eq_iff_eq.mpr hsize, Ordering.then_eq_eq, compare_eq_iff_eq, compare_eq_iff_eq]
    at hcompare
  obtain ⟨rfl, rfl⟩ := hcompare
  rw [← packed_unpack x, ← packed_unpack y, hux, huy]

/-! ### What is not finite -/

theorem unpack_cases_of_not_isFinite {x : Float} (h : x.isFinite = false) :
    x.toModel.unpack = .notANumber ∨ ∃ s, x.toModel.unpack = .infinity s := by
  have hunpack : x.toModel.unpack.isFinite = false := h
  cases hx : x.toModel.unpack with
  | notANumber => exact Or.inl rfl
  | infinity s => exact Or.inr ⟨s, rfl⟩
  | zero s => simp [hx, UnpackedFloat.isFinite] at hunpack
  | finite s m e hpos => simp [hx, UnpackedFloat.isFinite] at hunpack

theorem isFinite_packed_infinity (s : Sign) : (packed (.infinity s)).isFinite = false := by
  cases s <;> decide

theorem isFinite_packed_notANumber : (packed .notANumber).isFinite = false := by
  decide

theorem isFinite_packed_add_infinity (s t : Sign) :
    (packed (UnpackedFloat.add Format.binary64 (.infinity s) (.infinity t))).isFinite = false := by
  cases s <;> cases t <;> decide

theorem not_isFinite_add_left {x y : Float} (hx : x.isFinite = false) :
    (x + y).isFinite = false := by
  obtain hux | ⟨s, hux⟩ := unpack_cases_of_not_isFinite hx <;> rw [add_eq_packed, hux]
  · exact isFinite_packed_notANumber
  · cases y.toModel.unpack with
    | notANumber => exact isFinite_packed_notANumber
    | zero t => exact isFinite_packed_infinity s
    | finite t m e hpos => exact isFinite_packed_infinity s
    | infinity t => exact isFinite_packed_add_infinity s t

theorem not_isFinite_add_right {x y : Float} (hy : y.isFinite = false) :
    (x + y).isFinite = false := by
  obtain huy | ⟨t, huy⟩ := unpack_cases_of_not_isFinite hy <;> rw [add_eq_packed, huy]
  · cases x.toModel.unpack <;> exact isFinite_packed_notANumber
  · cases x.toModel.unpack with
    | notANumber => exact isFinite_packed_notANumber
    | zero s => exact isFinite_packed_infinity t
    | finite s m e hpos => exact isFinite_packed_infinity t
    | infinity s => exact isFinite_packed_add_infinity s t

/-- The quotient of a double by itself is finite only if the double is. -/
theorem not_isFinite_div_self {x : Float} (hx : x.isFinite = false) : (x / x).isFinite = false := by
  obtain hux | ⟨s, hux⟩ := unpack_cases_of_not_isFinite hx <;> rw [div_eq_packed, hux]
  · exact isFinite_packed_notANumber
  · exact isFinite_packed_notANumber

theorem not_isFinite_mul {x y : Float} (hy : y.isFinite = false) : (x * y).isFinite = false := by
  obtain huy | ⟨t, huy⟩ := unpack_cases_of_not_isFinite hy <;> rw [mul_eq_packed, huy]
  · cases x.toModel.unpack <;> exact isFinite_packed_notANumber
  · cases x.toModel.unpack with
    | notANumber => exact isFinite_packed_notANumber
    | zero s => exact isFinite_packed_notANumber
    | finite s m e hpos => exact isFinite_packed_infinity (s * t)
    | infinity s => exact isFinite_packed_infinity (s * t)

end DelayTuning
