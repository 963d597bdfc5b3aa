import DelayTuning.Proofs.Binary64.Value

/-!
# Rounding

The machine rounds the exact result of an operation to a double. Of this it is enough to know that rounding
never jumps over a double: whatever finite double lies below the exact number does not lie above the
rounded one, and the other way round.

## Main definitions

- `RoundsTo`: a double that no finite double separates from an exact number
- `Locates`: an exact number between two mantissas, with the two bits that are kept of its rest

## Main statements

- `RoundsTo.bounds`: what lies between two doubles is rounded to a double between them
- `RoundsTo.exactValue_eq`: doubles stay exact
- `roundsTo_roundWithAccuracy`, `roundsTo_normalize`: the machine's roundings
-/

namespace DelayTuning

open Float.Model Float.Model.UnpackedFloat

/-- No finite double lies between an exact number and the double it is rounded to. -/
def RoundsTo (v : ℚ) (x : Float) : Prop :=
  ∀ f : Float, f.isFinite = true → (exactValue f ≤ v → f ≤ x) ∧ (v ≤ exactValue f → x ≤ f)

namespace RoundsTo

variable {v : ℚ} {x f g : Float}

theorem le_of_exactValue_le (h : RoundsTo v x) (hf : f.isFinite = true) (hfv : exactValue f ≤ v) :
    f ≤ x :=
  (h f hf).1 hfv

theorem le_of_le_exactValue (h : RoundsTo v x) (hf : f.isFinite = true) (hvf : v ≤ exactValue f) :
    x ≤ f :=
  (h f hf).2 hvf

theorem isFinite (h : RoundsTo v x) (hf : f.isFinite = true) (hg : g.isFinite = true)
    (hfv : exactValue f ≤ v) (hvg : v ≤ exactValue g) : x.isFinite = true :=
  isFinite_of_le_of_le hf hg (h.le_of_exactValue_le hf hfv) (h.le_of_le_exactValue hg hvg)

theorem bounds (h : RoundsTo v x) (hf : f.isFinite = true) (hg : g.isFinite = true)
    (hfv : exactValue f ≤ v) (hvg : v ≤ exactValue g) :
    x.isFinite = true ∧ exactValue f ≤ exactValue x ∧ exactValue x ≤ exactValue g := by
  have hx := h.isFinite hf hg hfv hvg
  rw [← le_iff_exactValue_le hf hx, ← le_iff_exactValue_le hx hg]
  exact ⟨hx, h.le_of_exactValue_le hf hfv, h.le_of_le_exactValue hg hvg⟩

/-- The number of a double is rounded to this number. -/
theorem exactValue_eq (h : RoundsTo (exactValue f) x) (hf : f.isFinite = true) :
    x.isFinite = true ∧ exactValue x = exactValue f := by
  obtain ⟨hx, hge, hle⟩ := h.bounds hf hf le_rfl le_rfl
  exact ⟨hx, le_antisymm hle hge⟩

end RoundsTo

theorem roundsTo_exactValue {x : Float} (hx : x.isFinite = true) : RoundsTo (exactValue x) x := by
  intro f hf
  rw [le_iff_exactValue_le hf hx, le_iff_exactValue_le hx hf]
  exact ⟨id, id⟩

/-! ### Guard bits -/

/-- A mantissa with its two guard bits stands for a number in units of the mantissa's last place: the
mantissa is the number's integral part, and a bit is set iff something is left. -/
structure Locates (em : ExtendedMantissa) (v : ℚ) : Prop where
  mantissa_le : em.mantissa ≤ v
  lt_mantissa_add_one : v < em.mantissa + 1
  exact_iff : v = em.mantissa ↔ em.roundBit = false ∧ em.stickyBit = false

namespace Locates

variable {em : ExtendedMantissa} {v : ℚ}

theorem shiftRightOne (h : Locates em v) : Locates em.shiftRightOne (v / 2) := by
  have hdivide : (em.mantissa : ℚ) = 2 * (em.mantissa / 2 : ℕ) + (em.mantissa % 2 : ℕ) := by
    exact_mod_cast (Nat.div_add_mod em.mantissa 2).symm
  have hlow := h.mantissa_le
  have hhigh := h.lt_mantissa_add_one
  have hexact := h.exact_iff
  have hrest : em.mantissa % 2 = 0 ∨ em.mantissa % 2 = 1 := by omega
  refine ⟨?_, ?_, ?_⟩
  · change ((em.mantissa / 2 : ℕ) : ℚ) ≤ v / 2
    have : (0 : ℚ) ≤ (em.mantissa % 2 : ℕ) := Nat.cast_nonneg _
    linarith
  · change v / 2 < ((em.mantissa / 2 : ℕ) : ℚ) + 1
    have : ((em.mantissa % 2 : ℕ) : ℚ) ≤ 1 := by exact_mod_cast (by omega : em.mantissa % 2 ≤ 1)
    linarith
  · change v / 2 = ((em.mantissa / 2 : ℕ) : ℚ) ↔
      (em.mantissa % 2 != 0) = false ∧ (em.roundBit || em.stickyBit) = false
    obtain heven | hodd := hrest
    · rw [heven] at hdivide
      have hiff : v / 2 = ((em.mantissa / 2 : ℕ) : ℚ) ↔ v = em.mantissa := by
        constructor <;> intro hv <;> push_cast at hdivide <;> linarith
      rw [hiff, hexact, heven]
      simp
    · rw [hodd] at hdivide
      have hne : v / 2 ≠ ((em.mantissa / 2 : ℕ) : ℚ) := by
        push_cast at hdivide
        linarith
      simp [hne, hodd]

theorem shiftRight (h : Locates em v) (k : ℕ) : Locates (em >>> k) (v / 2 ^ k) := by
  change Locates (Nat.repeat ExtendedMantissa.shiftRightOne k em) (v / 2 ^ k)
  induction k with
  | zero => simpa [Nat.repeat] using h
  | succ k ih =>
    have hnext := ih.shiftRightOne
    rw [pow_succ, ← div_div]
    exact hnext

theorem roundedMantissa_cases (h : Locates em v) :
    (em.roundedMantissa = em.mantissa) ∨
      (em.roundedMantissa = em.mantissa + 1 ∧ (em.mantissa : ℚ) < v) := by
  have hlow := h.mantissa_le
  have hexact := h.exact_iff
  rcases em with ⟨m, round, sticky⟩
  have hstrict : (round || sticky) = true → (m : ℚ) < v := by
    intro hbits
    refine lt_of_le_of_ne hlow ?_
    intro heq
    have hboth := hexact.mp heq.symm
    simp_all
  cases round <;> cases sticky
  · exact Or.inl rfl
  · exact Or.inl rfl
  · change m + m % 2 = m ∨ m + m % 2 = m + 1 ∧ _
    obtain heven | hodd : m % 2 = 0 ∨ m % 2 = 1 := by omega
    · exact Or.inl (by rw [heven]; rfl)
    · exact Or.inr ⟨by rw [hodd], hstrict rfl⟩
  · exact Or.inr ⟨rfl, hstrict rfl⟩

/-- Rounding to an integer does not jump over integers. -/
theorem le_roundedMantissa (h : Locates em v) {j : ℕ} (hj : (j : ℚ) ≤ v) :
    j ≤ em.roundedMantissa := by
  have hlt : (j : ℚ) < em.mantissa + 1 := lt_of_le_of_lt hj h.lt_mantissa_add_one
  have hjm : j < em.mantissa + 1 := by exact_mod_cast hlt
  obtain heq | ⟨heq, -⟩ := h.roundedMantissa_cases <;> omega

theorem roundedMantissa_le (h : Locates em v) {j : ℕ} (hj : v ≤ (j : ℚ)) :
    em.roundedMantissa ≤ j := by
  obtain heq | ⟨heq, hlt⟩ := h.roundedMantissa_cases
  · have hle : (em.mantissa : ℚ) ≤ j := h.mantissa_le.trans hj
    have hmj : em.mantissa ≤ j := by exact_mod_cast hle
    omega
  · have hmj : em.mantissa < j := by exact_mod_cast lt_of_lt_of_le hlt hj
    omega

end Locates

/-! ### Rounding to 53 bits -/

/-- A mantissa and an exponent that no normalized number separates from an exact number. -/
structure Nearby (r : ℕ) (t : ℤ) (v : ℚ) : Prop where
  le_of_le : ∀ {n : ℕ} {q : ℤ}, Normalized n q → (n : ℚ) * 2 ^ q ≤ v → (n : ℚ) * 2 ^ q ≤ r * 2 ^ t
  ge_of_ge : ∀ {n : ℕ} {q : ℤ}, Normalized n q → v ≤ (n : ℚ) * 2 ^ q → (r : ℚ) * 2 ^ t ≤ n * 2 ^ q

/-- A multiple of a power of two is a multiple of every smaller one. -/
theorem mul_two_zpow_of_le (n : ℕ) {t q : ℤ} (h : t ≤ q) :
    (n : ℚ) * 2 ^ q = ((n * 2 ^ (q - t).toNat : ℕ) : ℚ) * 2 ^ t := by
  have hq : q = ((q - t).toNat : ℤ) + t := by omega
  conv_lhs => rw [hq, zpow_add₀ (by norm_num), zpow_natCast]
  push_cast
  ring

/-- A number with a leading bit that is rounded to a multiple of a power of two is rounded to the
neighbours in the format too, since those of a smaller exponent all lie below it. -/
theorem nearby_of_grid {r : ℕ} {t : ℤ} {v : ℚ}
    (hgrid : ∀ j : ℕ, ((j : ℚ) * 2 ^ t ≤ v → j ≤ r) ∧ (v ≤ (j : ℚ) * 2 ^ t → r ≤ j))
    (hleading : t = -1074 ∨ (2 : ℚ) ^ 52 * 2 ^ t ≤ v) : Nearby r t v := by
  have hpos := two_zpow_pos t
  -- what has a smaller exponent lies below the leading bit, and so below both numbers
  have hfine : ∀ {n : ℕ} {q : ℤ}, Normalized n q → q < t →
      (n : ℚ) * 2 ^ q < v ∧ (n : ℚ) * 2 ^ q ≤ r * 2 ^ t := by
    intro n q hn hq
    have hlarge : (2 : ℚ) ^ 52 * 2 ^ t ≤ v := by
      obtain hleast | hlarge := hleading
      · exact absurd hn.least_le (by omega)
      · exact hlarge
    have hr : 2 ^ 52 ≤ r := (hgrid (2 ^ 52)).1 (by exact_mod_cast hlarge)
    have hbelow : (n : ℚ) * 2 ^ q < 2 ^ 52 * 2 ^ t := by
      have hn53 : (n : ℚ) < 2 ^ 53 := by exact_mod_cast hn.mantissa_lt
      calc (n : ℚ) * 2 ^ q < 2 ^ 53 * 2 ^ q := by
            have := two_zpow_pos q
            gcongr
        _ = 2 ^ 52 * 2 ^ (q + 1) := by rw [zpow_add_one₀ (by norm_num)]; ring
        _ ≤ 2 ^ 52 * 2 ^ t := by
          gcongr
          · norm_num
          · omega
    have hrt : (2 : ℚ) ^ 52 * 2 ^ t ≤ r * 2 ^ t := by
      gcongr
      exact_mod_cast hr
    exact ⟨hbelow.trans_le hlarge, hbelow.le.trans hrt⟩
  refine ⟨?_, ?_⟩
  · intro n q hn hle
    obtain hq | hq := le_or_gt t q
    · rw [mul_two_zpow_of_le n hq] at hle ⊢
      gcongr
      exact (hgrid _).1 hle
    · exact (hfine hn hq).2
  · intro n q hn hle
    obtain hq | hq := le_or_gt t q
    · rw [mul_two_zpow_of_le n hq] at hle ⊢
      gcongr
      exact (hgrid _).2 hle
    · exact absurd hle (not_le.mpr (hfine hn hq).1)

theorem snd_shiftToTargetExponent (m : ℕ) (e : ℤ) (acc : Accuracy) :
    (shiftToTargetExponent Format.binary64 m e acc).2 =
      e + ((Format.binary64.targetExponent (totalExponent m e) - e).toNat : ℤ) := rfl

theorem targetExponent_totalExponent (m : ℕ) (e : ℤ) :
    Format.binary64.targetExponent (totalExponent m e) = max ((m.log2 : ℤ) + 1 + e - 53) (-1074) :=
  rfl

theorem mantissa_ofMantissaAndAccuracy (m : ℕ) (acc : Accuracy) :
    (ExtendedMantissa.ofMantissaAndAccuracy m acc).mantissa = m := by
  cases acc with
  | exact => rfl
  | inexact relative => cases relative <;> rfl

/-- The first shift of a rounding: the mantissa keeps 53 bits, fewer only at the least exponent. -/
theorem exists_shiftToTargetExponent_eq {m : ℕ} {e : ℤ} {acc : Accuracy} {w : ℚ}
    (hw : Locates (ExtendedMantissa.ofMantissaAndAccuracy m acc) w)
    (hfine : 52 ≤ m.log2 ∨ e ≤ -1074) :
    ∃ k : ℕ, shiftToTargetExponent Format.binary64 m e acc =
        (ExtendedMantissa.ofMantissaAndAccuracy m acc >>> k, e + k) ∧
      -1074 ≤ e + k ∧ w / 2 ^ k * 2 ^ (e + k) = w * 2 ^ e ∧ w / 2 ^ k ≤ ((2 ^ 53 : ℕ) : ℚ) ∧
      (e + k = -1074 ∨ ((2 ^ 52 : ℕ) : ℚ) ≤ w / 2 ^ k) := by
  have hm : (m : ℚ) ≤ w := by simpa [mantissa_ofMantissaAndAccuracy] using hw.mantissa_le
  have hm' : w < m + 1 := by simpa [mantissa_ofMantissaAndAccuracy] using hw.lt_mantissa_add_one
  obtain ⟨k, hk⟩ : ∃ k, k = (Format.binary64.targetExponent (totalExponent m e) - e).toNat := ⟨_, rfl⟩
  have hshift : shiftToTargetExponent Format.binary64 m e acc =
      (ExtendedMantissa.ofMantissaAndAccuracy m acc >>> k, e + k) := by
    rw [hk]
    rfl
  rw [targetExponent_totalExponent] at hk
  have hscale : w / 2 ^ k * 2 ^ (e + k) = w * 2 ^ e := by
    rw [zpow_add₀ (by norm_num), zpow_natCast]
    field_simp
  have hkpos : (0 : ℚ) < 2 ^ k := by positivity
  have hlog := Nat.lt_log2_self (n := m)
  refine ⟨k, hshift, by omega, hscale, ?_, ?_⟩
  · rw [div_le_iff₀ hkpos]
    have hpow : 2 ^ (m.log2 + 1) ≤ 2 ^ (53 + k) := Nat.pow_le_pow_right (by decide) (by omega)
    have hmsucc : m + 1 ≤ 2 ^ 53 * 2 ^ k := by
      rw [← pow_add]
      omega
    have : ((m + 1 : ℕ) : ℚ) ≤ ((2 ^ 53 * 2 ^ k : ℕ) : ℚ) := by exact_mod_cast hmsucc
    push_cast at this ⊢
    linarith
  · by_cases hleast : e + k = -1074
    · exact Or.inl hleast
    · refine Or.inr ?_
      have hbits : m.log2 = 52 + k := by omega
      have hself : 2 ^ m.log2 ≤ m := by
        refine Nat.log2_self_le ?_
        rintro rfl
        simp at hbits
        omega
      rw [le_div_iff₀ hkpos]
      have hmlow : 2 ^ 52 * 2 ^ k ≤ m := by
        rw [← pow_add, ← hbits]
        exact hself
      have : ((2 ^ 52 * 2 ^ k : ℕ) : ℚ) ≤ (m : ℚ) := by exact_mod_cast hmlow
      push_cast at this ⊢
      linarith

theorem nearby_shiftToTargetExponent {m : ℕ} {e : ℤ} {acc : Accuracy} {w : ℚ}
    (hw : Locates (ExtendedMantissa.ofMantissaAndAccuracy m acc) w)
    (hfine : 52 ≤ m.log2 ∨ e ≤ -1074) :
    (shiftToTargetExponent Format.binary64 m e acc).1.roundedMantissa ≤ 2 ^ 53 ∧
      -1074 ≤ (shiftToTargetExponent Format.binary64 m e acc).2 ∧
      (2 ^ 52 ≤ (shiftToTargetExponent Format.binary64 m e acc).1.roundedMantissa ∨
        (shiftToTargetExponent Format.binary64 m e acc).2 = -1074) ∧
      Nearby (shiftToTargetExponent Format.binary64 m e acc).1.roundedMantissa
        (shiftToTargetExponent Format.binary64 m e acc).2 (w * 2 ^ e) := by
  obtain ⟨k, hshift, hleast, hscale, hupper, hleading⟩ := exists_shiftToTargetExponent_eq hw hfine
  have hlocates := hw.shiftRight k
  have hpos := two_zpow_pos (e + k)
  rw [hshift]
  refine ⟨hlocates.roundedMantissa_le hupper, hleast, ?_, ?_⟩
  · obtain hleast | hlarge := hleading
    · exact Or.inr hleast
    · exact Or.inl (hlocates.le_roundedMantissa hlarge)
  · refine nearby_of_grid ?_ ?_
    · intro j
      rw [← hscale]
      constructor
      · intro hj
        exact hlocates.le_roundedMantissa (le_of_mul_le_mul_right hj hpos)
      · intro hj
        exact hlocates.roundedMantissa_le (le_of_mul_le_mul_right hj hpos)
    · obtain hleast | hlarge := hleading
      · exact Or.inl hleast
      · refine Or.inr ?_
        rw [← hscale]
        gcongr
        exact_mod_cast hlarge

/-- The second shift of a rounding takes back a carry into a new bit, which is exact. -/
theorem exists_shiftToTargetExponent_exact {r : ℕ} {t : ℤ} (hr : r ≤ 2 ^ 53) (ht : -1074 ≤ t)
    (hleading : 2 ^ 52 ≤ r ∨ t = -1074) :
    ∃ r' t', (shiftToTargetExponent Format.binary64 r t .exact).1.mantissa = r' ∧
      (shiftToTargetExponent Format.binary64 r t .exact).2 = t' ∧ Normalized r' t' ∧
      ((r' = r ∧ t' = t) ∨ (r = 2 ^ 53 ∧ r' = 2 ^ 52 ∧ t' = t + 1)) := by
  obtain hlt | heq := Nat.lt_or_eq_of_le hr
  · have hlog : r.log2 ≤ 52 := by
      by_cases hzero : r = 0
      · simp [hzero]
      · have := (Nat.log2_lt hzero).mpr hlt
        omega
    have hshift : (Format.binary64.targetExponent (totalExponent r t) - t).toNat = 0 := by
      rw [targetExponent_totalExponent]
      omega
    refine ⟨r, t, ?_, ?_, ⟨hlt, ht, hleading⟩, Or.inl ⟨rfl, rfl⟩⟩
    · rw [shiftToTargetExponent, shiftToExponent, hshift]
      rfl
    · rw [snd_shiftToTargetExponent, hshift]
      omega
  · have hshift : (Format.binary64.targetExponent (totalExponent r t) - t).toNat = 1 := by
      rw [targetExponent_totalExponent, heq, Nat.log2_two_pow]
      omega
    refine ⟨2 ^ 52, t + 1, ?_, ?_, ⟨by decide, by omega, Or.inl le_rfl⟩, Or.inr ⟨heq, rfl, rfl⟩⟩
    · rw [shiftToTargetExponent, shiftToExponent, hshift, heq]
      rfl
    · rw [snd_shiftToTargetExponent, hshift]
      rfl

/-- A carry into a new bit does not change the number. -/
theorem carry_mul_two_zpow {r r' : ℕ} {t t' : ℤ}
    (h : (r' = r ∧ t' = t) ∨ (r = 2 ^ 53 ∧ r' = 2 ^ 52 ∧ t' = t + 1)) :
    (r' : ℚ) * 2 ^ t' = r * 2 ^ t := by
  obtain ⟨rfl, rfl⟩ | ⟨rfl, rfl, rfl⟩ := h
  · rfl
  · rw [zpow_add_one₀ (by norm_num)]
    push_cast
    ring

theorem exists_normalized_abs {f : Float} (hf : f.isFinite = true) :
    ∃ n q, Normalized n q ∧ q ≤ 971 ∧ |exactValue f| = (n : ℚ) * 2 ^ q := by
  obtain ⟨s, hf⟩ | ⟨s, n, q, hpos, hf⟩ := unpack_cases_of_isFinite hf
  · refine ⟨0, -1074, ⟨by decide, le_rfl, Or.inr rfl⟩, by decide, ?_⟩
    rw [exactValue_of_zero hf]
    simp
  · obtain ⟨hnormal, hlarge⟩ := normalized_of_unpack hf
    have hnonneg : (0 : ℚ) ≤ n * 2 ^ q := by positivity
    refine ⟨n, q, hnormal, hlarge, ?_⟩
    rw [exactValue_of_finite hf]
    cases s
    · rw [applySign, abs_neg, abs_of_nonneg hnonneg]
    · rw [applySign, abs_of_nonneg hnonneg]

/-- Two sizes that lie on the same side of a number's size do so with either sign. -/
theorem applySign_sides (s : Sign) {f v r : ℚ} (hv : 0 ≤ v) (hr : 0 ≤ r) (hbelow : |f| ≤ v → |f| ≤ r)
    (habove : v ≤ |f| → r ≤ |f|) :
    (f ≤ applySign s v → f ≤ applySign s r) ∧ (applySign s v ≤ f → applySign s r ≤ f) := by
  obtain ⟨habs, hsign⟩ | ⟨habs, hsign⟩ := abs_cases f <;> rw [habs] at hbelow habove <;> cases s <;>
    simp only [applySign] <;> constructor <;> intro hle
  · have hzero : f = 0 := by linarith
    have := habove (by linarith)
    linarith
  · linarith
  · exact hbelow hle
  · exact habove hle
  · have := habove (by linarith)
    linarith
  · have := hbelow (by linarith)
    linarith
  · linarith
  · linarith

theorem roundsTo_of_nearby {x : Float} {s : Sign} {r : ℕ} {t : ℤ} {v : ℚ} (hx : x.isFinite = true)
    (hvalue : exactValue x = applySign s (r * 2 ^ t)) (hv : 0 ≤ v) (h : Nearby r t v) :
    RoundsTo (applySign s v) x := by
  intro f hf
  obtain ⟨n, q, hn, -, habs⟩ := exists_normalized_abs hf
  have hbelow := h.le_of_le hn
  have habove := h.ge_of_ge hn
  rw [← habs] at hbelow habove
  rw [le_iff_exactValue_le hf hx, le_iff_exactValue_le hx hf, hvalue]
  exact applySign_sides s hv (by positivity) hbelow habove

theorem isFinite_packed_zero (s : Sign) : (packed (.zero s)).isFinite = true := by
  cases s <;> decide

theorem exactValue_packed_zero (s : Sign) : exactValue (packed (.zero s)) = 0 :=
  exactValue_of_zero (s := s) unpack_packedZero

/-- Beyond all finite doubles a number becomes infinite. -/
theorem roundsTo_packed_large {s : Sign} {r : ℕ} {t : ℤ} {v : ℚ} (hpos : 0 < r)
    (hr : Normalized r t) (hlarge : 971 < t) (h : Nearby r t v) :
    RoundsTo (applySign s v) (packed (.finite s r t hpos)) := by
  intro f hf
  obtain ⟨n, q, hn, hq, habs⟩ := exists_normalized_abs hf
  have habove := h.ge_of_ge hn
  have hunpack := unpack_packed_of_large s hpos hlarge
  have hlt : (n : ℚ) * 2 ^ q < r * 2 ^ t := hn.lt_of_exponent_lt hr (by omega)
  have hfv : |exactValue f| < v := by
    rw [habs]
    by_contra hle
    exact absurd (habove (not_lt.mp hle)) (not_le.mpr hlt)
  obtain ⟨hneg, hpos'⟩ := abs_lt.mp hfv
  cases s
  · refine ⟨?_, fun _ => infinity_le_of_unpack hf hunpack⟩
    intro hle
    exact absurd hle (not_le.mpr hneg)
  · refine ⟨fun _ => le_of_unpack_infinity hf hunpack, ?_⟩
    intro hle
    exact absurd hle (not_le.mpr hpos')

theorem isFinite_packed_of_normalized (s : Sign) {m : ℕ} {e : ℤ} (hpos : 0 < m)
    (h : Normalized m e) (hlarge : e ≤ 971) : (packed (.finite s m e hpos)).isFinite = true := by
  change (packed (.finite s m e hpos)).toModel.unpack.isFinite = true
  rw [unpack_packed_of_normalized s hpos h hlarge]
  rfl

/-- The machine's rounding of a number that is located by a long enough mantissa. -/
theorem roundsTo_roundWithAccuracy (s : Sign) {m : ℕ} {e : ℤ} {acc : Accuracy} {w : ℚ}
    (hw : Locates (ExtendedMantissa.ofMantissaAndAccuracy m acc) w)
    (hfine : 52 ≤ m.log2 ∨ e ≤ -1074) :
    RoundsTo (applySign s (w * 2 ^ e))
      (packed (roundWithAccuracy Format.binary64 s m e acc)) := by
  have hw0 : 0 ≤ w := le_trans (Nat.cast_nonneg _) hw.mantissa_le
  have hv : 0 ≤ w * 2 ^ e := mul_nonneg hw0 (two_zpow_pos e).le
  obtain ⟨hr, ht, hleading, hnear⟩ := nearby_shiftToTargetExponent hw hfine
  obtain ⟨r, t, hmantissa, hexponent, hnormal, hcarry⟩ :=
    exists_shiftToTargetExponent_exact hr ht hleading
  have hvalue := carry_mul_two_zpow hcarry
  have hnear' : Nearby r t (w * 2 ^ e) := by
    constructor
    · intro n q hn hle
      rw [hvalue]
      exact hnear.le_of_le hn hle
    · intro n q hn hle
      rw [hvalue]
      exact hnear.ge_of_ge hn hle
  have hround : roundWithAccuracy Format.binary64 s m e acc =
      if h : r = 0 then .zero s else .finite s r t (Nat.pos_of_ne_zero h) := by
    subst hmantissa hexponent
    rfl
  rw [hround]
  by_cases hzero : r = 0
  · rw [dif_pos hzero]
    refine roundsTo_of_nearby (isFinite_packed_zero s) ?_ hv hnear'
    rw [exactValue_packed_zero, hzero]
    cases s <;> simp [applySign]
  · rw [dif_neg hzero]
    have hpos : 0 < r := Nat.pos_of_ne_zero hzero
    -- with too large an exponent the result is infinite, and no finite double lies beyond the number
    by_cases hlarge : t ≤ 971
    · have hunpack := unpack_packed_of_normalized s hpos hnormal hlarge
      exact roundsTo_of_nearby (isFinite_packed_of_normalized s hpos hnormal hlarge)
        (exactValue_of_finite hunpack) hv hnear'
    · exact roundsTo_packed_large hpos hnormal (not_le.mp hlarge) hnear'

theorem locates_exact (m : ℕ) : Locates (ExtendedMantissa.ofMantissaAndAccuracy m .exact) m := by
  refine ⟨le_rfl, ?_, ?_⟩
  · change (m : ℚ) < m + 1
    linarith
  · exact ⟨fun _ => ⟨rfl, rfl⟩, fun _ => rfl⟩

theorem log2_shiftLeft {m : ℕ} (hm : m ≠ 0) (k : ℕ) : (m <<< k).log2 = m.log2 + k := by
  obtain ⟨hlow, hhigh⟩ := (Nat.log2_eq_iff hm).mp rfl
  have hpos : 0 < 2 ^ k := Nat.two_pow_pos k
  have hne : m <<< k ≠ 0 := by
    rw [Nat.shiftLeft_eq]
    exact Nat.mul_ne_zero hm hpos.ne'
  refine (Nat.log2_eq_iff hne).mpr ⟨?_, ?_⟩
  · rw [Nat.shiftLeft_eq, pow_add]
    exact Nat.mul_le_mul_right _ hlow
  · rw [Nat.shiftLeft_eq, Nat.add_right_comm, pow_add]
    exact Nat.mul_lt_mul_of_pos_right hhigh hpos

/-- Rounding an exact integer times a power of two. -/
theorem roundsTo_round (s : Sign) {m : ℕ} (hm : 0 < m) (e : ℤ) :
    RoundsTo (applySign s (m * 2 ^ e)) (packed (UnpackedFloat.round Format.binary64 s m e)) := by
  obtain ⟨k, hk⟩ : ∃ k, k = (e - Format.binary64.targetExponent (totalExponent m e)).toNat := ⟨_, rfl⟩
  have hround : UnpackedFloat.round Format.binary64 s m e =
      roundWithAccuracy Format.binary64 s (m <<< k) (e - k) .exact := by
    rw [hk]
    rfl
  have hvalue : ((m <<< k : ℕ) : ℚ) * 2 ^ (e - k) = m * 2 ^ e := by
    rw [Nat.shiftLeft_eq, mul_two_zpow_of_le m (by omega : e - k ≤ e)]
    have : (e - (e - (k : ℤ))).toNat = k := by omega
    rw [this]
  rw [targetExponent_totalExponent] at hk
  have hfine : 52 ≤ (m <<< k).log2 ∨ e - k ≤ -1074 := by
    rw [log2_shiftLeft hm.ne']
    omega
  rw [hround, ← hvalue]
  exact roundsTo_roundWithAccuracy s (locates_exact _) hfine

theorem roundsTo_normalize (m e : ℤ) (s : Sign) :
    RoundsTo (m * 2 ^ e) (packed (UnpackedFloat.normalize Format.binary64 m e s)) := by
  rw [UnpackedFloat.normalize]
  obtain hneg | hzero | hpos := lt_trichotomy m 0
  · rw [Int.compare_eq_lt.mpr hneg]
    have hnat : ((-m).toNat : ℤ) = -m := Int.toNat_of_nonneg (by omega)
    have hcast : ((-m).toNat : ℚ) = -(m : ℚ) := by exact_mod_cast hnat
    have hround := roundsTo_round .negative (m := (-m).toNat) (by omega) e
    rw [applySign, hcast, neg_mul, neg_neg] at hround
    exact hround
  · rw [hzero, compare_eq_iff_eq.mpr rfl, Int.cast_zero, zero_mul]
    rw [← exactValue_packed_zero s]
    exact roundsTo_exactValue (isFinite_packed_zero s)
  · rw [Int.compare_eq_gt.mpr hpos]
    have hnat : (m.toNat : ℤ) = m := Int.toNat_of_nonneg (by omega)
    have hcast : (m.toNat : ℚ) = (m : ℚ) := by exact_mod_cast hnat
    have hround := roundsTo_round .positive (m := m.toNat) (by omega) e
    rw [applySign, hcast] at hround
    exact hround

end DelayTuning
