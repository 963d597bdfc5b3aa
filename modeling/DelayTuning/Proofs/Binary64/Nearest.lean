import DelayTuning.Proofs.Binary64.Rounding

/-!
# Rounding to nearest

The machine rounds a number to the double nearest to it. Of two doubles that are equally near it takes the
one whose mantissa is even, and what lies at least half a step beyond the largest double becomes infinite.

The two guard bits of a mantissa decide. The number lies on a grid of mantissas of one exponent, and the bits
tell on which side of the middle between two grid points. Doubles of a smaller exponent all lie below the
leading bit of the number, so the nearest grid point is the nearest double.

## Main definitions

- `RoundsToNearest`: the double nearest to a number
- `Halves`: what the guard bits tell of the middle between two mantissas
- `Rounded`: a double that the machine has made of a number with guard bits

## Main statements

- `Locates.roundedMantissa_nearest`: the nearest mantissa
- `nearest_of_grid`: the nearest mantissa makes the nearest double
- `lt_overflowBound_iff`: which numbers become infinite
- `Rounded.roundsToNearest`: the machine rounds to nearest
-/

namespace DelayTuning

open Float.Model Float.Model.UnpackedFloat

/-- The least size that becomes infinite: half a step beyond the largest double. -/
def overflowBound : ℚ := 2 ^ 1024 - 2 ^ 970

/-- The mantissa of a double is even. -/
def HasEvenMantissa (x : Float) : Prop :=
  ∃ negative mantissa exponent, Binary64.ofFloat x = .finite negative mantissa exponent ∧ Even mantissa

/-- The double nearest to a number: it is infinite from half a step beyond the largest double on, otherwise no
finite double is nearer, and of two that are equally near it is the one with the even mantissa. -/
structure RoundsToNearest (v : ℚ) (x : Float) : Prop where
  finite_iff : x.isFinite = true ↔ |v| < overflowBound
  nearest : x.isFinite = true → ∀ f : Float, f.isFinite = true → exactValue f ≠ exactValue x →
    |exactValue x - v| < |exactValue f - v| ∨
      (|exactValue x - v| = |exactValue f - v| ∧ HasEvenMantissa x)
  infinite : x.isFinite = false → Binary64.ofFloat x = .infinity (decide (v < 0))

/-! ### Guard bits -/

/-- The guard bits of a mantissa tell where a number lies: the round bit is set from the middle to the next
mantissa on, and in the middle it is the only one. -/
structure Halves (em : ExtendedMantissa) (v : ℚ) : Prop where
  half_le_iff : em.mantissa + 1 / 2 ≤ v ↔ em.roundBit = true
  half_eq_iff : v = em.mantissa + 1 / 2 ↔ em.roundBit = true ∧ em.stickyBit = false

/-- A bit that is shifted out becomes the round bit. -/
theorem Locates.halves_shiftRightOne {em : ExtendedMantissa} {v : ℚ} (h : Locates em v) :
    Halves em.shiftRightOne (v / 2) := by
  have hdivide : (em.mantissa : ℚ) = 2 * (em.mantissa / 2 : ℕ) + (em.mantissa % 2 : ℕ) := by
    exact_mod_cast (Nat.div_add_mod em.mantissa 2).symm
  have hlow := h.mantissa_le
  have hhigh := h.lt_mantissa_add_one
  have hexact := h.exact_iff
  constructor
  · change ((em.mantissa / 2 : ℕ) : ℚ) + 1 / 2 ≤ v / 2 ↔ (em.mantissa % 2 != 0) = true
    obtain heven | hodd : em.mantissa % 2 = 0 ∨ em.mantissa % 2 = 1 := by omega
    · rw [heven, Nat.cast_zero] at hdivide
      have hbelow : ¬ ((em.mantissa / 2 : ℕ) : ℚ) + 1 / 2 ≤ v / 2 := by linarith
      rw [heven]
      exact iff_of_false hbelow (by decide)
    · rw [hodd, Nat.cast_one] at hdivide
      have habove : ((em.mantissa / 2 : ℕ) : ℚ) + 1 / 2 ≤ v / 2 := by linarith
      rw [hodd]
      exact iff_of_true habove (by decide)
  · change v / 2 = ((em.mantissa / 2 : ℕ) : ℚ) + 1 / 2 ↔
      (em.mantissa % 2 != 0) = true ∧ (em.roundBit || em.stickyBit) = false
    obtain heven | hodd : em.mantissa % 2 = 0 ∨ em.mantissa % 2 = 1 := by omega
    · rw [heven, Nat.cast_zero] at hdivide
      have hne : v / 2 ≠ ((em.mantissa / 2 : ℕ) : ℚ) + 1 / 2 := by
        intro heq
        linarith
      rw [heven]
      exact iff_of_false hne (by simp)
    · rw [hodd, Nat.cast_one] at hdivide
      have hiff : v / 2 = ((em.mantissa / 2 : ℕ) : ℚ) + 1 / 2 ↔ v = em.mantissa := by
        constructor <;> intro heq <;> linarith
      rw [hiff, hexact, hodd]
      simp

theorem Locates.halves_shiftRight {em : ExtendedMantissa} {v : ℚ} (h : Locates em v) (hh : Halves em v)
    (k : ℕ) : Halves (em >>> k) (v / 2 ^ k) := by
  cases k with
  | zero =>
    rw [pow_zero, div_one]
    exact hh
  | succ k =>
    have hlast := (h.shiftRight k).halves_shiftRightOne
    rw [pow_succ, ← div_div]
    exact hlast

/-- The rounded mantissa is at most half a unit away, and even if it is as much. -/
theorem Locates.roundedMantissa_nearest {em : ExtendedMantissa} {v : ℚ} (h : Locates em v)
    (hh : Halves em v) :
    |(em.roundedMantissa : ℚ) - v| < 1 / 2 ∨
      (|(em.roundedMantissa : ℚ) - v| = 1 / 2 ∧ Even em.roundedMantissa) := by
  have hlow := h.mantissa_le
  have hhigh := h.lt_mantissa_add_one
  have hexact := h.exact_iff
  have hhalf := hh.half_le_iff
  have hmiddle := hh.half_eq_iff
  rcases em with ⟨m, round, sticky⟩
  dsimp only at hlow hhigh hexact hhalf hmiddle
  cases round with
  | false =>
    -- below the middle the mantissa stays
    have hround : (⟨m, false, sticky⟩ : ExtendedMantissa).roundedMantissa = m := by
      cases sticky <;> rfl
    have hbelow : v < m + 1 / 2 := by
      rw [← not_le, hhalf]
      exact Bool.false_ne_true
    rw [hround]
    exact Or.inl (abs_sub_lt_iff.mpr ⟨by linarith, by linarith⟩)
  | true =>
    have habove : (m : ℚ) + 1 / 2 ≤ v := hhalf.mpr rfl
    cases sticky with
    | false =>
      have hround : (⟨m, true, false⟩ : ExtendedMantissa).roundedMantissa = m + m % 2 := rfl
      have heq : v = m + 1 / 2 := hmiddle.mpr ⟨rfl, rfl⟩
      rw [hround, heq]
      refine Or.inr ⟨?_, by rw [Nat.even_iff]; omega⟩
      obtain heven | hodd : m % 2 = 0 ∨ m % 2 = 1 := by omega
      · rw [heven, Nat.cast_add, Nat.cast_zero, abs_of_nonpos (by linarith)]
        linarith
      · rw [hodd, Nat.cast_add, Nat.cast_one, abs_of_nonneg (by linarith)]
        linarith
    | true =>
      have hround : (⟨m, true, true⟩ : ExtendedMantissa).roundedMantissa = m + 1 := rfl
      have hne : v ≠ m + 1 / 2 := by
        rw [Ne, hmiddle]
        rintro ⟨-, hsticky⟩
        cases hsticky
      have hlt : (m : ℚ) + 1 / 2 < v := lt_of_le_of_ne habove hne.symm
      rw [hround, Nat.cast_add, Nat.cast_one]
      exact Or.inl (abs_sub_lt_iff.mpr ⟨by linarith, by linarith⟩)

/-! ### The nearest double -/

/-- Within half a unit of an integer no other integer is nearer. -/
theorem nearest_integer {r : ℕ} {u : ℚ}
    (h : |(r : ℚ) - u| < 1 / 2 ∨ (|(r : ℚ) - u| = 1 / 2 ∧ Even r)) {j : ℤ} (hj : j ≠ r) :
    |(r : ℚ) - u| < |(j : ℚ) - u| ∨ (|(r : ℚ) - u| = |(j : ℚ) - u| ∧ Even r) := by
  have hgap : (1 : ℚ) ≤ |(j : ℚ) - r| := by
    have hone : 1 ≤ |j - (r : ℤ)| := Int.one_le_abs (sub_ne_zero.mpr hj)
    exact_mod_cast hone
  have htriangle : |(j : ℚ) - r| ≤ |(j : ℚ) - u| + |(r : ℚ) - u| := by
    rw [abs_sub_comm (r : ℚ) u]
    exact abs_sub_le _ _ _
  obtain hlt | ⟨heq, heven⟩ := h
  · left
    linarith
  · obtain hlt | hle := lt_or_ge |(r : ℚ) - u| |(j : ℚ) - u|
    · exact Or.inl hlt
    · exact Or.inr ⟨le_antisymm (by linarith) hle, heven⟩

/-- The nearest grid point is nearer than the numbers of all other normalized mantissas, or as near and even:
those of a larger exponent lie on the grid, and those of a smaller one below the leading bit. -/
theorem nearest_of_grid {r : ℕ} {t : ℤ} {u : ℚ}
    (hround : |(r : ℚ) - u| < 1 / 2 ∨ (|(r : ℚ) - u| = 1 / 2 ∧ Even r))
    (hleading : t = -1074 ∨ (2 : ℚ) ^ 52 ≤ u) {y : ℚ} {n : ℕ} {q : ℤ} (hn : Normalized n q)
    (hy : |y| = n * 2 ^ q) (hne : y ≠ r * 2 ^ t) :
    |(r : ℚ) * 2 ^ t - u * 2 ^ t| < |y - u * 2 ^ t| ∨
      (|(r : ℚ) * 2 ^ t - u * 2 ^ t| = |y - u * 2 ^ t| ∧ Even r) := by
  have hpos := two_zpow_pos t
  have hscale : ∀ a : ℚ, |a * 2 ^ t - u * 2 ^ t| = |a - u| * 2 ^ t := by
    intro a
    rw [← sub_mul, abs_mul, abs_of_pos hpos]
  obtain hq | hq := le_or_gt t q
  · obtain ⟨j, hj⟩ : ∃ j : ℤ, y = j * 2 ^ t := by
      rw [mul_two_zpow_of_le n hq] at hy
      obtain hy | hy := (abs_eq (by positivity)).mp hy
      · exact ⟨((n * 2 ^ (q - t).toNat : ℕ) : ℤ), by rw [hy, Int.cast_natCast]⟩
      · exact ⟨-((n * 2 ^ (q - t).toNat : ℕ) : ℤ), by rw [hy, Int.cast_neg, Int.cast_natCast, neg_mul]⟩
    have hjr : j ≠ r := by
      rintro rfl
      exact hne (by rw [hj, Int.cast_natCast])
    rw [hj, hscale, hscale]
    obtain hlt | ⟨heq, heven⟩ := nearest_integer hround hjr
    · exact Or.inl (mul_lt_mul_of_pos_right hlt hpos)
    · exact Or.inr ⟨by rw [heq], heven⟩
  -- a smaller exponent than that of the leading bit
  · have hlarge : (2 : ℚ) ^ 52 ≤ u := hleading.resolve_left fun hleast => by
      have := hn.least_le
      omega
    have hbelow : y < 2 ^ 52 * 2 ^ t := by
      have hn53 : (n : ℚ) < 2 ^ 53 := by exact_mod_cast hn.mantissa_lt
      calc y ≤ |y| := le_abs_self y
        _ = n * 2 ^ q := hy
        _ < 2 ^ 53 * 2 ^ q := by
          have := two_zpow_pos q
          gcongr
        _ = 2 ^ 52 * 2 ^ (q + 1) := by rw [zpow_add_one₀ (by norm_num)]; ring
        _ ≤ 2 ^ 52 * 2 ^ t := by
          gcongr
          · norm_num
          · omega
    have hcorner : |(r : ℚ) - u| ≤ |(2 : ℚ) ^ 52 - u| := by
      by_cases hr : ((2 ^ 52 : ℕ) : ℤ) = r
      · have hr' : ((2 ^ 52 : ℕ) : ℚ) = r := by exact_mod_cast hr
        rw [← hr']
        push_cast
        exact le_refl _
      · have hnear := nearest_integer hround hr
        push_cast at hnear
        obtain hlt | ⟨heq, -⟩ := hnear
        · exact hlt.le
        · exact heq.le
    refine Or.inl ?_
    have hu : (2 : ℚ) ^ 52 * 2 ^ t ≤ u * 2 ^ t := by gcongr
    calc |(r : ℚ) * 2 ^ t - u * 2 ^ t| = |(r : ℚ) - u| * 2 ^ t := hscale r
      _ ≤ |(2 : ℚ) ^ 52 - u| * 2 ^ t := by gcongr
      _ = |(2 : ℚ) ^ 52 * 2 ^ t - u * 2 ^ t| := (hscale _).symm
      _ = u * 2 ^ t - 2 ^ 52 * 2 ^ t := by rw [abs_sub_comm, abs_of_nonneg (by linarith)]
      _ < u * 2 ^ t - y := by linarith
      _ ≤ |y - u * 2 ^ t| := by
        rw [abs_sub_comm]
        exact le_abs_self _

/-! ### Beyond the largest double -/

theorem overflowBound_eq : overflowBound = ((2 : ℚ) ^ 53 - 1 / 2) * 2 ^ (971 : ℤ) := by
  have hlarge : (2 : ℚ) ^ 1024 = 2 ^ 54 * 2 ^ 970 := pow_add 2 54 970
  have hstep : (2 : ℚ) ^ (971 : ℤ) = 2 ^ 970 * 2 := (zpow_natCast 2 971).trans (pow_succ 2 970)
  rw [overflowBound, hlarge, hstep]
  generalize (2 : ℚ) ^ 970 = half
  ring

/-- A number becomes infinite iff its nearest mantissa, after the carry, has too large an exponent. -/
theorem lt_overflowBound_iff {r r' : ℕ} {t t' : ℤ} {u : ℚ}
    (hround : |(r : ℚ) - u| < 1 / 2 ∨ (|(r : ℚ) - u| = 1 / 2 ∧ Even r))
    (hleading : t = -1074 ∨ (2 : ℚ) ^ 52 ≤ u) (hnormal : Normalized r' t')
    (hcarry : (r' = r ∧ t' = t) ∨ (r = 2 ^ 53 ∧ r' = 2 ^ 52 ∧ t' = t + 1)) :
    u * 2 ^ t < overflowBound ↔ t' ≤ 971 := by
  have hnear : |(r : ℚ) - u| ≤ 1 / 2 := by
    obtain hlt | ⟨heq, -⟩ := hround
    · exact hlt.le
    · exact heq.le
  obtain ⟨hbelow, habove⟩ := abs_le.mp hnear
  have hpos := two_zpow_pos t
  obtain ⟨top, htop⟩ : ∃ top : ℚ, top = 2 ^ (971 : ℤ) := ⟨_, rfl⟩
  have htopPos : 0 < top := htop ▸ two_zpow_pos 971
  have hsmall : ∀ {s : ℤ}, s ≤ 971 → (2 : ℚ) ^ s ≤ top := fun hs =>
    htop ▸ zpow_le_zpow_right₀ (by norm_num) hs
  have hlarge : ∀ {s : ℤ}, 971 ≤ s → top ≤ (2 : ℚ) ^ s := fun hs =>
    htop ▸ zpow_le_zpow_right₀ (by norm_num) hs
  rw [overflowBound_eq, ← htop]
  clear htop
  obtain ⟨rfl, rfl⟩ | ⟨rfl, rfl, rfl⟩ := hcarry
  · have hr : r' < 2 ^ 53 := hnormal.mantissa_lt
    constructor
    · intro hlt
      by_contra hbeyond
      have hu : (2 : ℚ) ^ 52 ≤ u := hleading.resolve_left (by omega)
      have hexponent : top * 2 ≤ 2 ^ t' := by
        have hprevious := hlarge (s := t' - 1) (by omega)
        have hdouble : (2 : ℚ) ^ t' = 2 ^ (t' - 1) * 2 := by
          rw [← zpow_add_one₀ (by norm_num), sub_add_cancel]
        linarith
      have hsize : (2 : ℚ) ^ 52 * (top * 2) ≤ u * 2 ^ t' := by gcongr
      linarith
    · intro ht
      -- the largest mantissa is odd, so nothing in the middle beyond it is rounded to it
      have hu : u < 2 ^ 53 - 1 / 2 := by
        by_cases hlast : r' = 2 ^ 53 - 1
        · have hcast : (r' : ℚ) = 2 ^ 53 - 1 := by
            rw [hlast]
            norm_num
          obtain hlt | ⟨-, heven⟩ := hround
          · have := (abs_lt.mp hlt).1
            linarith
          · rw [hlast] at heven
            exact absurd heven (by decide)
        · have hcast : ((r' + 2 : ℕ) : ℚ) ≤ ((2 ^ 53 : ℕ) : ℚ) := Nat.cast_le.mpr (by omega)
          push_cast at hcast
          linarith
      calc u * 2 ^ t' < (2 ^ 53 - 1 / 2) * 2 ^ t' := by gcongr
        _ ≤ (2 ^ 53 - 1 / 2) * top := by
          have := hsmall ht
          gcongr
  · push_cast at hbelow habove
    constructor
    · intro hlt
      by_contra hbeyond
      have hexponent : top ≤ 2 ^ t := hlarge (by omega)
      have hsize : ((2 : ℚ) ^ 53 - 1 / 2) * top ≤ u * 2 ^ t := by
        gcongr
        · linarith
        · linarith
      linarith
    · intro ht
      have hexponent : (2 : ℚ) ^ t * 2 ≤ top := by
        rw [← zpow_add_one₀ (by norm_num)]
        exact hsmall ht
      have hsize : u * 2 ^ t ≤ (2 ^ 53 + 1 / 2) * 2 ^ t := by
        gcongr
        linarith
      linarith

/-! ### What the machine rounds -/

/-- A double that the machine has made of a number: a zero, or a rounded mantissa that locates the number and is
long enough. -/
inductive Rounded : ℚ → Float → Prop
  | zero (s : Sign) : Rounded 0 (packed (.zero s))
  | located (s : Sign) {m : ℕ} {e : ℤ} {acc : Accuracy} {w : ℚ}
    (hw : Locates (ExtendedMantissa.ofMantissaAndAccuracy m acc) w)
    (hh : Halves (ExtendedMantissa.ofMantissaAndAccuracy m acc) w)
    (hfine : 52 ≤ m.log2 ∨ e ≤ -1074) :
    Rounded (applySign s (w * 2 ^ e)) (packed (roundWithAccuracy Format.binary64 s m e acc))

theorem Rounded.roundsTo {v : ℚ} {x : Float} (h : Rounded v x) : RoundsTo v x := by
  cases h with
  | zero s =>
    rw [← exactValue_packed_zero s]
    exact roundsTo_exactValue (isFinite_packed_zero s)
  | located s hw hh hfine => exact roundsTo_roundWithAccuracy s hw hfine

theorem abs_applySign (s : Sign) (q : ℚ) : |applySign s q| = |q| := by
  cases s
  · exact abs_neg q
  · rfl

/-- The sign of one of two numbers can be moved to the other one without a change of their distance. -/
theorem abs_sub_applySign (s : Sign) (a b : ℚ) : |a - applySign s b| = |applySign s a - b| := by
  cases s
  · have hopposite : -a - b = -(a - -b) := by ring
    rw [applySign, applySign, hopposite, abs_neg]
  · rfl

theorem applySign_involutive (s : Sign) : Function.Involutive (applySign s) := by
  cases s
  · exact neg_involutive
  · exact fun _ => rfl

/-- What the machine makes of a normalized mantissa whose exponent is not too large. -/
theorem packed_of_normalized (s : Sign) {r : ℕ} {t : ℤ} (h : Normalized r t) (ht : t ≤ 971) {x : Float}
    (hx : x = packed (if hr : r = 0 then .zero s else .finite s r t (Nat.pos_of_ne_zero hr))) :
    x.isFinite = true ∧ exactValue x = applySign s (r * 2 ^ t) ∧ (Even r → HasEvenMantissa x) := by
  subst hx
  by_cases hr : r = 0
  · rw [dif_pos hr]
    refine ⟨isFinite_packed_zero s, ?_, fun _ => ⟨isNegative s, 0, Binary64.minExponent, ?_, Even.zero⟩⟩
    · rw [exactValue_packed_zero, hr, Nat.cast_zero, zero_mul]
      cases s
      · exact neg_zero.symm
      · rfl
    · rw [Binary64.ofFloat_eq]
      exact congrArg Binary64.ofUnpacked unpack_packedZero
  · rw [dif_neg hr]
    have hpos := Nat.pos_of_ne_zero hr
    have hunpack := unpack_packed_of_normalized s hpos h ht
    refine ⟨isFinite_packed_of_normalized s hpos h ht, exactValue_of_finite hunpack, ?_⟩
    intro heven
    refine ⟨isNegative s, r, t, ?_, heven⟩
    rw [Binary64.ofFloat_eq, hunpack]
    rfl

theorem overflowBound_pos : 0 < overflowBound := by
  have hmantissa : (0 : ℚ) < 2 ^ 53 - 1 / 2 := by norm_num
  rw [overflowBound_eq]
  exact mul_pos hmantissa (two_zpow_pos 971)

theorem decide_applySign_neg (s : Sign) {v : ℚ} (hv : 0 < v) :
    decide (applySign s v < 0) = isNegative s := by
  cases s
  · exact decide_eq_true (neg_neg_of_pos hv)
  · exact decide_eq_false (not_lt.mpr hv.le)

/-- A mantissa that is exact has nothing beyond it. -/
theorem halves_exact (m : ℕ) : Halves (ExtendedMantissa.ofMantissaAndAccuracy m .exact) m := by
  constructor
  · have hbelow : ¬ (m : ℚ) + 1 / 2 ≤ m := by linarith
    exact iff_of_false hbelow Bool.false_ne_true
  · have hne : (m : ℚ) ≠ m + 1 / 2 := by linarith
    exact iff_of_false hne (fun hbits => Bool.false_ne_true hbits.1)

/-- The machine's rounding of a number that is located by a long enough mantissa is to nearest. -/
theorem roundsToNearest_roundWithAccuracy (s : Sign) {m : ℕ} {e : ℤ} {acc : Accuracy} {w : ℚ}
    (hw : Locates (ExtendedMantissa.ofMantissaAndAccuracy m acc) w)
    (hh : Halves (ExtendedMantissa.ofMantissaAndAccuracy m acc) w)
    (hfine : 52 ≤ m.log2 ∨ e ≤ -1074) :
    RoundsToNearest (applySign s (w * 2 ^ e))
      (packed (roundWithAccuracy Format.binary64 s m e acc)) := by
  obtain ⟨k, hshift, hleast, hscale, hupper, hleading⟩ := exists_shiftToTargetExponent_eq hw hfine
  have hlocates := hw.shiftRight k
  have hnear := hlocates.roundedMantissa_nearest (hw.halves_shiftRight hh k)
  have hle := hlocates.roundedMantissa_le hupper
  have hlong := hleading.imp_right hlocates.le_roundedMantissa
  push_cast at hleading
  obtain ⟨r, t, hmantissa, hexponent, hnormal, hcarry⟩ :=
    exists_shiftToTargetExponent_exact hle hleast hlong.symm
  have hvalue := carry_mul_two_zpow hcarry
  have hround : roundWithAccuracy Format.binary64 s m e acc =
      if h : r = 0 then .zero s else .finite s r t (Nat.pos_of_ne_zero h) := by
    subst hmantissa hexponent
    rw [roundWithAccuracy, hshift]
  have hw0 : 0 ≤ w := le_trans (Nat.cast_nonneg _) hw.mantissa_le
  have hsize : |applySign s (w * 2 ^ e)| = w * 2 ^ e := by
    rw [abs_applySign, abs_of_nonneg (mul_nonneg hw0 (two_zpow_pos e).le)]
  have hbound := lt_overflowBound_iff hnear hleading hnormal hcarry
  rw [hscale] at hbound
  by_cases ht : t ≤ 971
  · obtain ⟨hfinite, hexact, heven⟩ := packed_of_normalized s hnormal ht (congrArg packed hround)
    refine ⟨iff_of_true hfinite (by rw [hsize]; exact hbound.mpr ht), ?_, ?_⟩
    · intro _ f hf hne
      obtain ⟨n, q, hn, -, habs⟩ := exists_normalized_abs hf
      rw [← abs_applySign s] at habs
      rw [hexact, hvalue] at hne ⊢
      have hother := (applySign_involutive s).eq_iff.not.mpr hne
      rw [abs_sub_applySign, abs_sub_applySign, applySign_involutive s, ← hscale]
      obtain hlt | ⟨heq, hr⟩ := nearest_of_grid hnear hleading hn habs hother
      · exact Or.inl hlt
      · refine Or.inr ⟨heq, heven ?_⟩
        obtain ⟨rfl, -⟩ | ⟨-, rfl, -⟩ := hcarry
        · exact hr
        · decide
    · intro hinfinite
      rw [hfinite] at hinfinite
      cases hinfinite
  -- an exponent that is too large is not the least one, so the mantissa has its leading bit
  · have hr : 0 < r := by
      obtain hbit | hleast := hnormal.leading <;> omega
    have hunpack := unpack_packed_of_large s hr (not_le.mp ht)
    rw [hround, dif_neg hr.ne']
    have hinfinite : (packed (.finite s r t hr)).isFinite = false :=
      congrArg UnpackedFloat.isFinite hunpack
    have hbeyond : overflowBound ≤ w * 2 ^ e := not_lt.mp (fun hlt => ht (hbound.mp hlt))
    refine ⟨iff_of_false ?_ ?_, ?_, ?_⟩
    · rw [hinfinite]
      exact Bool.false_ne_true
    · rw [hsize]
      exact not_lt.mpr hbeyond
    · intro hfinite
      rw [hinfinite] at hfinite
      cases hfinite
    · intro _
      rw [Binary64.ofFloat_eq, hunpack, decide_applySign_neg s (overflowBound_pos.trans_le hbeyond)]
      rfl

/-- The machine rounds to nearest. -/
theorem Rounded.roundsToNearest {v : ℚ} {x : Float} (h : Rounded v x) : RoundsToNearest v x := by
  cases h with
  | zero s =>
    have hfinite := isFinite_packed_zero s
    refine ⟨iff_of_true hfinite ?_, ?_, ?_⟩
    · rw [abs_zero]
      exact overflowBound_pos
    · intro _ f _ hne
      rw [exactValue_packed_zero] at hne ⊢
      rw [sub_zero, sub_zero, abs_zero]
      exact Or.inl (abs_pos.mpr hne)
    · intro hinfinite
      rw [hfinite] at hinfinite
      cases hinfinite
  | located s hw hh hfine => exact roundsToNearest_roundWithAccuracy s hw hh hfine

end DelayTuning
