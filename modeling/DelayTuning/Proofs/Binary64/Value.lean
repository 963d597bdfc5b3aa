import DelayTuning.Decimal.Binary64
import Mathlib

/-!
# The exact value of a double

A finite double is an integer times a power of two, so it is a rational number. The order of finite
doubles is the order of these numbers; an infinity lies beyond all of them, and a NaN is on neither side.

## Main definitions

- `exactValue`: the number that a finite double stands for
- `Normalized`: the mantissas and exponents of numbers that need no rounding
- `packed`: the double that the machine makes of what it has computed

## Main statements

- `Binary64.ofFloat_eq`: the two ways to take a double apart agree
- `unpack_packed_of_normalized`: a number that needs no rounding is a double
- `le_iff_exactValue_le`, `lt_iff_exactValue_lt`, `beq_iff_exactValue_eq`: the order of finite doubles
-/

namespace DelayTuning

open Float.Model Float.Model.UnpackedFloat

/-- The number of a double that has been taken apart; what stands for no number gives zero. -/
def Binary64.value : Binary64 → ℚ
  | .finite negative mantissa exponent =>
    if negative then -(mantissa * 2 ^ exponent) else mantissa * 2 ^ exponent
  | _ => 0

/-- The number that a finite double stands for. -/
def exactValue (x : Float) : ℚ :=
  (Binary64.ofFloat x).value

/-! ### Taking doubles apart -/

def isNegative : Sign → Bool
  | .negative => true
  | .positive => false

/-- A double that the machine's decoder has taken apart. -/
def Binary64.ofUnpacked : UnpackedFloat → Binary64
  | .notANumber => .nan
  | .infinity s => .infinity (isNegative s)
  | .zero s => .finite (isNegative s) 0 minExponent
  | .finite s m e _ => .finite (isNegative s) m e

theorem toNat_unpackMantissa (b : BitVec 64) :
    (@unpackMantissa Format.binary64 b).toNat = b.toNat % 2 ^ 52 := by
  rw [unpackMantissa_def]
  simp

theorem toNat_unpackExponent (b : BitVec 64) :
    (@unpackExponent Format.binary64 b).toNat = b.toNat / 2 ^ 52 % 2 ^ 11 := by
  rw [unpackExponent_def]
  simp [Nat.shiftRight_eq_div_pow]

theorem toNat_unpackSign (b : BitVec 64) :
    (@unpackSign Format.binary64 b).toNat = b.toNat / 2 ^ 63 % 2 := by
  rw [unpackSign_def]
  simp [Nat.shiftRight_eq_div_pow]

theorem isNegative_ofBitVec (b : BitVec 1) :
    isNegative (Sign.ofBitVec b) = (b.toNat == 1) := by
  have hb : b = 0#1 ∨ b = 1#1 := by
    rcases b with ⟨n, hn⟩
    interval_cases n
    · exact Or.inl rfl
    · exact Or.inr rfl
  obtain rfl | rfl := hb <;> rfl

theorem toNat_append_one (m : BitVec 52) : (1#1 ++ m).toNat = 2 ^ 52 + m.toNat := by
  rw [BitVec.toNat_append, ← Nat.shiftLeft_add_eq_or_of_lt m.isLt]
  rfl

/-- The library's decoder and the one of the machine's arithmetic give the same. -/
theorem Binary64.ofFloat_eq (x : Float) :
    Binary64.ofFloat x = Binary64.ofUnpacked x.toModel.unpack := by
  let b : BitVec 64 := x.toModel.toBits.toBitVec
  have hbits : x.toBits.toNat = b.toNat := rfl
  have hunpack : x.toModel.unpack = UnpackedFloat.unpack Format.binary64 b := rfl
  have hm := toNat_unpackMantissa b
  have he := toNat_unpackExponent b
  have hs := toNat_unpackSign b
  -- both decoders test the same fields, one as numbers and one as bits
  have hallOnes : @unpackExponent Format.binary64 b = -1#11 ↔
      b.toNat / 2 ^ 52 % 2 ^ 11 = 2047 := by
    rw [← he, ← BitVec.toNat_inj]
    rfl
  have hsubnormal : @unpackExponent Format.binary64 b = 0#11 ↔
      b.toNat / 2 ^ 52 % 2 ^ 11 = 0 := by
    rw [← he, ← BitVec.toNat_inj]
    rfl
  have hround : @unpackMantissa Format.binary64 b = 0#52 ↔ b.toNat % 2 ^ 52 = 0 := by
    rw [← hm, ← BitVec.toNat_inj]
    rfl
  have hsign : isNegative (Sign.ofBitVec (@unpackSign Format.binary64 b)) =
      (b.toNat / 2 ^ 63 % 2 == 1) := by
    rw [isNegative_ofBitVec, hs]
  rw [Binary64.ofFloat, hbits, hunpack]
  simp only [Binary64.ofBits, UnpackedFloat.unpack, Nat.pow_eq]
  by_cases hinfinite : b.toNat / 2 ^ 52 % 2 ^ 11 = 2047
  · rw [if_pos hinfinite, if_pos (hallOnes.mpr hinfinite)]
    by_cases hzero : b.toNat % 2 ^ 52 = 0
    · rw [if_pos hzero, if_pos (hround.mpr hzero)]
      simp only [Binary64.ofUnpacked, hsign]
    · rw [if_neg hzero, if_neg (fun h => hzero (hround.mp h))]
      rfl
  · rw [if_neg hinfinite, if_neg (fun h => hinfinite (hallOnes.mp h))]
    by_cases hleast : b.toNat / 2 ^ 52 % 2 ^ 11 = 0
    · rw [if_pos hleast, if_pos (hsubnormal.mpr hleast)]
      by_cases hzero : b.toNat % 2 ^ 52 = 0
      · rw [dif_pos (hround.mpr hzero), hzero]
        simp only [Binary64.ofUnpacked, hsign]
      · rw [dif_neg (fun h => hzero (hround.mp h))]
        simp only [Binary64.ofUnpacked, hsign, hm, he, hleast]
        rfl
    · rw [if_neg hleast, if_neg (fun h => hleast (hsubnormal.mp h))]
      have hexponent : Binary64.minExponent + ((b.toNat / 2 ^ 52 % 2 ^ 11 - 1 : ℕ) : ℤ) =
          ((b.toNat / 2 ^ 52 % 2 ^ 11 : ℕ) : ℤ) -
            (Format.binary64.exponentBias + Format.binary64.mantissaBitsWithoutImplicit) := by
        have hbias : (Format.binary64.exponentBias : ℤ) +
            Format.binary64.mantissaBitsWithoutImplicit = 1075 := rfl
        have hleastExponent : Binary64.minExponent = -1074 := rfl
        omega
      simp only [Binary64.ofUnpacked, hsign]
      rw [toNat_append_one, hm, he, hexponent]

/-! ### Mantissas and exponents -/

/-- The mantissa and the exponent of a number that needs no rounding: 53 bits, the first of them set unless
the exponent is the least one. -/
structure Normalized (m : ℕ) (e : ℤ) : Prop where
  mantissa_lt : m < 2 ^ 53
  least_le : -1074 ≤ e
  leading : 2 ^ 52 ≤ m ∨ e = -1074

theorem normalized_of_ofFloat {x : Float} {negative : Bool} {m : ℕ} {e : ℤ}
    (h : Binary64.ofFloat x = .finite negative m e) : Normalized m e ∧ e ≤ 971 := by
  have hfraction : x.toBits.toNat % 2 ^ 52 < 2 ^ 52 := Nat.mod_lt _ (by decide)
  have hfield : x.toBits.toNat / 2 ^ 52 % 2 ^ 11 < 2 ^ 11 := Nat.mod_lt _ (by decide)
  simp only [Binary64.ofFloat, Binary64.ofBits, Nat.pow_eq, Binary64.minExponent] at h
  split at h
  · split at h <;> cases h
  · split at h
    · cases h
      exact ⟨⟨by omega, by omega, Or.inr rfl⟩, by omega⟩
    · cases h
      exact ⟨⟨by omega, by omega, Or.inl (by omega)⟩, by omega⟩

theorem normalized_of_unpack {x : Float} {s : Sign} {m : ℕ} {e : ℤ} {hpos : 0 < m}
    (h : x.toModel.unpack = .finite s m e hpos) : Normalized m e ∧ e ≤ 971 := by
  have hfloat := Binary64.ofFloat_eq x
  rw [h] at hfloat
  exact normalized_of_ofFloat hfloat

/-- The double that the machine makes of what it has computed. -/
def packed (u : UnpackedFloat) : Float :=
  ⟨Float.Model.pack u⟩

section Operations

variable (x y : Float)

theorem neg_eq_packed : -x = packed (UnpackedFloat.neg x.toModel.unpack) := rfl

theorem add_eq_packed :
    x + y = packed (UnpackedFloat.add Format.binary64 x.toModel.unpack y.toModel.unpack) := rfl

theorem sub_eq_packed :
    x - y = packed (UnpackedFloat.sub Format.binary64 x.toModel.unpack y.toModel.unpack) := rfl

theorem mul_eq_packed :
    x * y = packed (UnpackedFloat.mul Format.binary64 x.toModel.unpack y.toModel.unpack) := rfl

theorem div_eq_packed :
    x / y = packed (UnpackedFloat.div Format.binary64 x.toModel.unpack y.toModel.unpack) := rfl

end Operations

theorem unpack_packedInfinity (s : Sign) :
    UnpackedFloat.unpack Format.binary64 (packedInfinity Format.binary64 s) = .infinity s := by
  cases s <;> rfl

/-- A number that needs no rounding is a double if its exponent is not too large. -/
theorem unpack_packed_of_normalized (s : Sign) {m : ℕ} {e : ℤ} (hpos : 0 < m) (h : Normalized m e)
    (hlarge : e ≤ 971) : (packed (.finite s m e hpos)).toModel.unpack = .finite s m e hpos := by
  have hleast := h.least_le
  have hmantissa := h.mantissa_lt
  have hcapacity : ¬ 2 ^ 11 ≤ (e + 1023 + 52).toNat + 1 := by omega
  have hpack : (packed (.finite s m e hpos)).toModel.unpack =
      UnpackedFloat.unpack Format.binary64
        (if m.log2 + 1 = 53 then packComponents Format.binary64 s
            (BitVec.ofNat 11 (e + 1023 + 52).toNat) (BitVec.ofNat 52 m)
          else packComponents Format.binary64 s 0#11 (BitVec.ofNat 52 m)) :=
    congrArg (UnpackedFloat.unpack Format.binary64) (if_neg hcapacity)
  have hfraction : (BitVec.ofNat 52 m).toNat = m % 2 ^ 52 := BitVec.toNat_ofNat m 52
  rw [hpack]
  -- a leading bit is not stored but told by an exponent field that is not zero
  by_cases hnormal : 2 ^ 52 ≤ m
  · have hlog : m.log2 = 52 := (Nat.log2_eq_iff (by omega)).mpr ⟨hnormal, hmantissa⟩
    have hfield : (BitVec.ofNat 11 (e + 1023 + 52).toNat).toNat = (e + 1023 + 52).toNat := by
      rw [BitVec.toNat_ofNat]
      omega
    have hfinite : BitVec.ofNat 11 (e + 1023 + 52).toNat ≠ -1#11 := by
      rw [Ne, ← BitVec.toNat_inj, hfield]
      change (e + 1023 + 52).toNat ≠ 2047
      omega
    have hsome : BitVec.ofNat 11 (e + 1023 + 52).toNat ≠ 0#11 := by
      rw [Ne, ← BitVec.toNat_inj, hfield]
      change (e + 1023 + 52).toNat ≠ 0
      omega
    have hm : (1#1 ++ BitVec.ofNat 52 m).toNat = m := by
      rw [toNat_append_one, hfraction]
      omega
    have he : ((e + 1023 + 52).toNat : ℤ) - (Format.binary64.exponentBias +
        Format.binary64.mantissaBitsWithoutImplicit) = e := by
      change ((e + 1023 + 52).toNat : ℤ) - 1075 = e
      omega
    rw [if_pos (by omega)]
    simp only [UnpackedFloat.unpack, unpackMantissa_packComponents, unpackExponent_packComponents,
      unpackSign_packComponents, Sign.ofBitVec_toBitVec, if_neg hfinite, if_neg hsome, hfield, hm, he]
  · have hlog : m.log2 < 52 := (Nat.log2_lt (by omega)).mpr (by omega)
    have hm : (BitVec.ofNat 52 m).toNat = m := by
      rw [hfraction]
      omega
    have hsome : BitVec.ofNat 52 m ≠ 0#52 := by
      rw [Ne, ← BitVec.toNat_inj, hm]
      change m ≠ 0
      omega
    have hfinite : (0#11 : BitVec 11) ≠ -1#11 := by decide
    have he : ((0#11).toNat : ℤ) - (Format.binary64.exponentBias +
        Format.binary64.mantissaBitsWithoutImplicit) + 1 = e := by
      obtain hlow | hexponent := h.leading
      · omega
      · rw [hexponent]
        rfl
    rw [if_neg (by omega)]
    simp only [UnpackedFloat.unpack, unpackMantissa_packComponents, unpackExponent_packComponents,
      unpackSign_packComponents, Sign.ofBitVec_toBitVec, if_neg hfinite, if_true, dif_neg hsome, hm, he]

/-- A number whose exponent is too large becomes infinite. -/
theorem unpack_packed_of_large (s : Sign) {m : ℕ} {e : ℤ} (hpos : 0 < m) (hlarge : 971 < e) :
    (packed (.finite s m e hpos)).toModel.unpack = .infinity s := by
  have hcapacity : 2 ^ 11 ≤ (e + 1023 + 52).toNat + 1 := by omega
  have hpack : (packed (.finite s m e hpos)).toModel.unpack =
      UnpackedFloat.unpack Format.binary64 (packedInfinity Format.binary64 s) :=
    congrArg (UnpackedFloat.unpack Format.binary64) (if_pos hcapacity)
  rw [hpack, unpack_packedInfinity]

/-! ### The order of doubles -/

theorem two_zpow_pos (e : ℤ) : (0 : ℚ) < 2 ^ e :=
  zpow_pos (by norm_num) e

/-- Of two normalized numbers the one with the larger exponent is larger, whatever the mantissas are. -/
theorem Normalized.lt_of_exponent_lt {m₁ m₂ : ℕ} {e₁ e₂ : ℤ} (h₁ : Normalized m₁ e₁)
    (h₂ : Normalized m₂ e₂) (h : e₁ < e₂) : (m₁ : ℚ) * 2 ^ e₁ < m₂ * 2 ^ e₂ := by
  have hm₁ : (m₁ : ℚ) < 2 ^ 53 := by exact_mod_cast h₁.mantissa_lt
  have hm₂ : (2 : ℚ) ^ 52 ≤ m₂ := by
    obtain hleading | hleast := h₂.leading
    · exact_mod_cast hleading
    · exact absurd h₁.least_le (by omega)
  calc (m₁ : ℚ) * 2 ^ e₁ < 2 ^ 53 * 2 ^ e₁ := by gcongr
    _ = 2 ^ 52 * 2 ^ (e₁ + 1) := by rw [zpow_add_one₀ (by norm_num)]; ring
    _ ≤ 2 ^ 52 * 2 ^ e₂ := by
      gcongr
      · norm_num
      · omega
    _ ≤ m₂ * 2 ^ e₂ := by gcongr

theorem compare_normalized {m₁ m₂ : ℕ} {e₁ e₂ : ℤ} (h₁ : Normalized m₁ e₁)
    (h₂ : Normalized m₂ e₂) :
    (compare e₁ e₂).then (compare m₁ m₂) = compare ((m₁ : ℚ) * 2 ^ e₁) (m₂ * 2 ^ e₂) := by
  obtain hlt | heq | hgt := lt_trichotomy e₁ e₂
  · rw [compare_lt_iff_lt.mpr hlt, compare_lt_iff_lt.mpr (h₁.lt_of_exponent_lt h₂ hlt)]
    rfl
  · subst heq
    have hpos := two_zpow_pos e₁
    rw [compare_eq_iff_eq.mpr rfl, Ordering.eq_then]
    obtain hm | hm | hm := lt_trichotomy m₁ m₂
    · rw [compare_lt_iff_lt.mpr hm, eq_comm, compare_lt_iff_lt]
      gcongr
    · rw [hm, compare_eq_iff_eq.mpr rfl, compare_eq_iff_eq.mpr rfl]
    · rw [compare_gt_iff_gt.mpr hm, eq_comm, compare_gt_iff_gt]
      gcongr
  · rw [compare_gt_iff_gt.mpr hgt, compare_gt_iff_gt.mpr (h₂.lt_of_exponent_lt h₁ hgt)]
    rfl

theorem unpack_cases_of_isFinite {x : Float} (h : x.isFinite = true) :
    (∃ s, x.toModel.unpack = .zero s) ∨
      ∃ s m e hpos, x.toModel.unpack = .finite s m e hpos := by
  have hunpack : x.toModel.unpack.isFinite = true := h
  cases hx : x.toModel.unpack with
  | notANumber => simp [hx, UnpackedFloat.isFinite] at hunpack
  | infinity s => simp [hx, UnpackedFloat.isFinite] at hunpack
  | zero s => exact Or.inl ⟨s, rfl⟩
  | finite s m e hpos => exact Or.inr ⟨s, m, e, hpos, rfl⟩

theorem exactValue_of_zero {x : Float} {s : Sign} (h : x.toModel.unpack = .zero s) :
    exactValue x = 0 := by
  rw [exactValue, Binary64.ofFloat_eq, h]
  cases s <;> simp [Binary64.ofUnpacked, Binary64.value, isNegative]

/-- A rational number with the given sign. -/
def applySign : Sign → ℚ → ℚ
  | .negative, q => -q
  | .positive, q => q

theorem exactValue_of_finite {x : Float} {s : Sign} {m : ℕ} {e : ℤ} {hpos : 0 < m}
    (h : x.toModel.unpack = .finite s m e hpos) : exactValue x = applySign s (m * 2 ^ e) := by
  rw [exactValue, Binary64.ofFloat_eq, h]
  cases s <;> rfl

theorem swap_compare_neg (a b : ℚ) : (compare a b).swap = compare (-a) (-b) := by
  obtain h | h | h := lt_trichotomy a b
  · rw [compare_lt_iff_lt.mpr h, eq_comm, Ordering.swap, compare_gt_iff_gt]
    exact neg_lt_neg h
  · rw [h, compare_eq_iff_eq.mpr rfl, compare_eq_iff_eq.mpr rfl]
    rfl
  · rw [compare_gt_iff_gt.mpr h, eq_comm, Ordering.swap, compare_lt_iff_lt]
    exact neg_lt_neg h

/-- The machine compares finite doubles as the numbers they stand for. -/
theorem compare_unpack {x y : Float} (hx : x.isFinite = true) (hy : y.isFinite = true) :
    UnpackedFloat.compare x.toModel.unpack y.toModel.unpack =
      some (compare (exactValue x) (exactValue y)) := by
  obtain ⟨s, hx⟩ | ⟨s, m, e, hpos, hx⟩ := unpack_cases_of_isFinite hx <;>
    obtain ⟨t, hy⟩ | ⟨t, n, f, hpos', hy⟩ := unpack_cases_of_isFinite hy
  · rw [hx, hy, exactValue_of_zero hx, exactValue_of_zero hy]
    simp [UnpackedFloat.compare]
  · have hn : (0 : ℚ) < n * 2 ^ f := mul_pos (by exact_mod_cast hpos') (two_zpow_pos f)
    rw [hx, hy, exactValue_of_zero hx, exactValue_of_finite hy]
    cases t
    · rw [applySign, compare_gt_iff_gt.mpr (neg_lt_zero.mpr hn)]
      rfl
    · rw [applySign, compare_lt_iff_lt.mpr hn]
      rfl
  · have hm : (0 : ℚ) < m * 2 ^ e := mul_pos (by exact_mod_cast hpos) (two_zpow_pos e)
    rw [hx, hy, exactValue_of_zero hy, exactValue_of_finite hx]
    cases s
    · rw [applySign, compare_lt_iff_lt.mpr (neg_lt_zero.mpr hm)]
      rfl
    · rw [applySign, compare_gt_iff_gt.mpr hm]
      rfl
  · have hm : (0 : ℚ) < m * 2 ^ e := mul_pos (by exact_mod_cast hpos) (two_zpow_pos e)
    have hn : (0 : ℚ) < n * 2 ^ f := mul_pos (by exact_mod_cast hpos') (two_zpow_pos f)
    have hcompare := compare_normalized (normalized_of_unpack hx).1 (normalized_of_unpack hy).1
    rw [hx, hy, exactValue_of_finite hx, exactValue_of_finite hy]
    cases s <;> cases t <;> simp only [applySign]
    · rw [← swap_compare_neg, ← hcompare]
      rfl
    · rw [compare_lt_iff_lt.mpr (by linarith)]
      rfl
    · rw [compare_gt_iff_gt.mpr (by linarith)]
      rfl
    · rw [← hcompare]
      rfl

theorem float_le_iff (x y : Float) :
    x ≤ y ↔ (UnpackedFloat.compare x.toModel.unpack y.toModel.unpack).any Ordering.isLE = true := by
  change decide (x.toModel ≤ y.toModel) = true ↔ _
  rw [decide_eq_true_iff]
  rfl

theorem float_lt_iff (x y : Float) :
    x < y ↔ UnpackedFloat.compare x.toModel.unpack y.toModel.unpack = some .lt := by
  change decide (x.toModel < y.toModel) = true ↔ _
  rw [decide_eq_true_iff]
  change (UnpackedFloat.compare x.toModel.unpack y.toModel.unpack == some .lt) = true ↔ _
  exact beq_iff_eq

theorem le_iff_exactValue_le {x y : Float} (hx : x.isFinite = true) (hy : y.isFinite = true) :
    x ≤ y ↔ exactValue x ≤ exactValue y := by
  rw [float_le_iff, compare_unpack hx hy, Option.any_some, Ordering.isLE_iff_ne_gt]
  exact compare_le_iff_le

theorem lt_iff_exactValue_lt {x y : Float} (hx : x.isFinite = true) (hy : y.isFinite = true) :
    x < y ↔ exactValue x < exactValue y := by
  rw [float_lt_iff, compare_unpack hx hy, Option.some_inj]
  exact compare_lt_iff_lt

/-- Finite doubles are equal if they stand for the same number, so both zeros are. -/
theorem beq_iff_exactValue_eq {x y : Float} (hx : x.isFinite = true) (hy : y.isFinite = true) :
    (x == y) = true ↔ exactValue x = exactValue y := by
  change (UnpackedFloat.compare x.toModel.unpack y.toModel.unpack == some .eq) = true ↔ _
  rw [compare_unpack hx hy, beq_iff_eq, Option.some_inj]
  exact compare_eq_iff_eq

/-- Nothing that can be compared with a finite double from both sides is infinite or a NaN. -/
theorem isFinite_of_le_of_le {x f g : Float} (hf : f.isFinite = true) (hg : g.isFinite = true)
    (hfx : f ≤ x) (hxg : x ≤ g) : x.isFinite = true := by
  rw [float_le_iff] at hfx hxg
  change x.toModel.unpack.isFinite = true
  -- a NaN compares with nothing, and each infinity fails one of the two comparisons
  obtain ⟨s, hf⟩ | ⟨s, m, e, hpos, hf⟩ := unpack_cases_of_isFinite hf <;>
    obtain ⟨t, hg⟩ | ⟨t, n, k, hpos', hg⟩ := unpack_cases_of_isFinite hg <;>
    rw [hf] at hfx <;> rw [hg] at hxg <;>
    cases hx : x.toModel.unpack with
    | notANumber => simp [hx, UnpackedFloat.compare] at hxg
    | zero u => rfl
    | finite u k l hkl => rfl
    | infinity u =>
      rw [hx] at hfx hxg
      cases u
      · simp [UnpackedFloat.compare] at hfx
      · simp [UnpackedFloat.compare] at hxg

theorem le_of_unpack_infinity {x y : Float} (hx : x.isFinite = true)
    (hy : y.toModel.unpack = .infinity .positive) : x ≤ y := by
  rw [float_le_iff, hy]
  obtain ⟨s, hx⟩ | ⟨s, m, e, hpos, hx⟩ := unpack_cases_of_isFinite hx
  · rw [hx]
    rfl
  · rw [hx]
    rfl

theorem infinity_le_of_unpack {x y : Float} (hx : x.isFinite = true)
    (hy : y.toModel.unpack = .infinity .negative) : y ≤ x := by
  rw [float_le_iff, hy]
  obtain ⟨s, hx⟩ | ⟨s, m, e, hpos, hx⟩ := unpack_cases_of_isFinite hx
  · rw [hx]
    rfl
  · rw [hx]
    rfl

end DelayTuning
