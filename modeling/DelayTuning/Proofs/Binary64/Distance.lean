import DelayTuning.Proofs.Binary64.Squares
import DelayTuning.Proofs.Decimal.Nearest

/-!
# Distances from finite points

A point with finite coordinates is at a distance from every point whose coordinates are numbers, be they finite or
infinite: the squared distance is at least zero or infinite, and never a NaN. From itself it is at the distance
zero. A sum of finite doubles may overflow but is a number, and so is its quotient by a count.

## Main definitions

- `FinitePoint`, `NumberPoint`: points with finite coordinates, points whose coordinates are no NaNs

## Main statements

- `isNaN_finite_sub_eq_false`, `isNaN_mul_self_eq_false`, `isNaN_div_eq_false`: operations that give no NaN
- `squaredDistance_nonneg`, `squaredDistance_self_le`: the squared distances from a finite point
- `le_of_not_lt_of_nonneg`, `beq_zero_iff_le`: the order of doubles that are at least zero
- `count_pos`: the number of some things as a double
-/

namespace DelayTuning

open Float.Model Float.Model.UnpackedFloat

variable {d e x y : Float}

/-! ### The order of doubles that are at least zero -/

section Order

variable (hd : 0.0 ≤ d) (he : 0.0 ≤ e)

include hd he

theorem le_of_not_lt_of_nonneg (h : ¬ d < e) : e ≤ d := by
  rw [lt_iff_extendedValue_lt hd he, not_lt] at h
  exact (le_iff_extendedValue_le he hd).mpr h

theorem le_of_lt_of_nonneg (h : d < e) : d ≤ e := by
  rw [lt_iff_extendedValue_lt hd he] at h
  exact (le_iff_extendedValue_le hd he).mpr h.le

variable (hx : 0.0 ≤ x)

include hx

theorem le_trans_of_nonneg (h : d ≤ e) (h' : e ≤ x) : d ≤ x := by
  rw [le_iff_extendedValue_le hd he] at h
  rw [le_iff_extendedValue_le he hx] at h'
  exact (le_iff_extendedValue_le hd hx).mpr (h.trans h')

theorem lt_of_le_of_lt_of_nonneg (h : d ≤ e) (h' : e < x) : d < x := by
  rw [le_iff_extendedValue_le hd he] at h
  rw [lt_iff_extendedValue_lt he hx] at h'
  exact (lt_iff_extendedValue_lt hd hx).mpr (h.trans_lt h')

end Order

theorem zero_le_zero : (0.0 : Float) ≤ 0.0 := by
  decide

theorem le_self_of_nonneg (hd : 0.0 ≤ d) : d ≤ d :=
  (le_iff_extendedValue_le hd hd).mpr le_rfl

theorem beq_self_of_nonneg (hd : 0.0 ≤ d) : (d == d) = true := by
  have hnumber := (isNaN_eq_false_of_le hd).2
  rw [Float.isNaN_eq_decide_eq_nan, decide_eq_false_iff_not] at hnumber
  exact Float.beq_self_iff.mpr hnumber

/-- What is at least zero is equal to zero if it is not more. -/
theorem beq_zero_iff_le (hd : 0.0 ≤ d) : (d == 0.0) = true ↔ d ≤ 0.0 := by
  constructor
  · intro h
    obtain ⟨-, -, rfl | ⟨rfl, -⟩ | ⟨rfl, -⟩⟩ := Float.beq_iff_ne_nan_and_eq.mp h <;> decide
  · intro h
    have hfinite := isFinite_of_le_of_le (f := 0.0) (g := 0.0) (by decide) (by decide) hd h
    rw [beq_iff_exactValue_eq hfinite (by decide)]
    rw [le_iff_exactValue_le (by decide) hfinite] at hd
    rw [le_iff_exactValue_le hfinite (by decide)] at h
    exact le_antisymm h hd

/-! ### Operations that give no NaN -/

theorem isNaN_finite_sub_eq_false (hx : x.isFinite = true) (hy : y.isNaN = false) :
    (x - y).isNaN = false := by
  by_cases hfinite : y.isFinite = true
  · exact (roundsTo_sub hx hfinite).isNaN_eq_false
  obtain ⟨s, hs⟩ := unpack_infinity_of_isNaN_eq_false hy (Bool.eq_false_of_not_eq_true hfinite)
  rw [sub_eq_packed, hs]
  obtain ⟨t, ht⟩ | ⟨t, m, k, hpos, ht⟩ := unpack_cases_of_isFinite hx
  · rw [ht]
    exact isNaN_packed_infinity (-s)
  · rw [ht]
    exact isNaN_packed_infinity (-s)

theorem isNaN_mul_self_eq_false (hx : x.isNaN = false) : (x * x).isNaN = false := by
  by_cases hfinite : x.isFinite = true
  · exact (roundsTo_mul hfinite hfinite).isNaN_eq_false
  obtain ⟨s, hs⟩ := unpack_infinity_of_isNaN_eq_false hx (Bool.eq_false_of_not_eq_true hfinite)
  rw [mul_eq_packed, hs]
  exact isNaN_packed_infinity (s * s)

theorem isNaN_div_eq_false (hx : x.isNaN = false) (hy : y.isFinite = true) (hne : exactValue y ≠ 0) :
    (x / y).isNaN = false := by
  by_cases hfinite : x.isFinite = true
  · exact (roundsTo_div hfinite hy hne).isNaN_eq_false
  obtain ⟨s, hs⟩ := unpack_infinity_of_isNaN_eq_false hx (Bool.eq_false_of_not_eq_true hfinite)
  obtain ⟨t, ht⟩ | ⟨t, m, k, hpos, ht⟩ := unpack_cases_of_isFinite hy
  · exact absurd (exactValue_of_zero ht) hne
  · rw [div_eq_packed, hs, ht]
    exact isNaN_packed_infinity (s / t)

theorem add_nonneg_of_nonneg (hx : 0.0 ≤ x) (hy : 0.0 ≤ y) : 0.0 ≤ x + y := by
  have hxnumber := (isNaN_eq_false_of_le hx).2
  have hynumber := (isNaN_eq_false_of_le hy).2
  refine IsSize.add (fun _ => hx) (fun _ => hy) ?_
  cases hfx : x.isFinite with
  | true => exact isNaN_finite_add_eq_false hfx hynumber
  | false =>
    cases hfy : y.isFinite with
    | true => exact isNaN_add_eq_false hxnumber hfy
    | false =>
      rw [add_eq_packed, unpack_of_nonneg hx hfx, unpack_of_nonneg hy hfy]
      exact isNaN_packed_infinity .positive

theorem mul_self_nonneg_of_number (hx : x.isNaN = false) : 0.0 ≤ x * x :=
  isSize_mul_self x (isNaN_mul_self_eq_false hx)

/-! ### Squared distances -/

/-- A point with finite coordinates. -/
def FinitePoint (p : Point Float) : Prop :=
  ∀ c ∈ p, c.isFinite = true

instance (p : Point Float) : Decidable (FinitePoint p) :=
  inferInstanceAs (Decidable (∀ c ∈ p, c.isFinite = true))

/-- A point whose coordinates are finite or infinite, but no NaNs. -/
def NumberPoint (p : Point Float) : Prop :=
  ∀ c ∈ p, c.isNaN = false

theorem FinitePoint.numberPoint {p : Point Float} (h : FinitePoint p) : NumberPoint p :=
  fun c hc => isNaN_eq_false_of_isFinite (h c hc)

theorem foldl_add_nonneg {sizes : List Float} (h : ∀ d ∈ sizes, 0.0 ≤ d) {total : Float} (htotal : 0.0 ≤ total) :
    0.0 ≤ sizes.foldl (fun total d => total + d) total := by
  induction sizes generalizing total with
  | nil => exact htotal
  | cons d rest ih =>
    obtain ⟨hd, hrest⟩ := List.forall_mem_cons.mp h
    exact ih hrest (add_nonneg_of_nonneg htotal hd)

/-- From a finite point to a point of numbers there is a squared distance. -/
theorem squaredDistance_nonneg {a b : Point Float} (ha : FinitePoint a) (hb : NumberPoint b) :
    0.0 ≤ Point.squaredDistance a b := by
  have hzero : (0.0 : Float) ≤ -0.0 := by decide
  refine foldl_add_nonneg ?_ hzero
  intro d hd
  obtain ⟨i, hi, rfl⟩ := List.mem_iff_getElem.mp hd
  rw [List.getElem_zipWith]
  exact mul_self_nonneg_of_number
    (isNaN_finite_sub_eq_false (ha _ (List.getElem_mem _)) (hb _ (List.getElem_mem _)))

/-- A double that stands for zero. -/
def IsZero (d : Float) : Prop :=
  d.isFinite = true ∧ exactValue d = 0

theorem IsZero.add (hx : IsZero x) (hy : IsZero y) : IsZero (x + y) := by
  have hround := roundsTo_add hx.1 hy.1
  rw [hx.2, hy.2, add_zero, ← exactValue_zero] at hround
  obtain ⟨hfinite, hvalue⟩ := hround.exactValue_eq (by decide)
  exact ⟨hfinite, hvalue.trans exactValue_zero⟩

theorem IsZero.mul (hx : IsZero x) (hy : IsZero y) : IsZero (x * y) := by
  have hround := roundsTo_mul hx.1 hy.1
  rw [hx.2, zero_mul, ← exactValue_zero] at hround
  obtain ⟨hfinite, hvalue⟩ := hround.exactValue_eq (by decide)
  exact ⟨hfinite, hvalue.trans exactValue_zero⟩

theorem isZero_sub_self (hx : x.isFinite = true) : IsZero (x - x) := by
  have hround := roundsTo_sub hx hx
  rw [sub_self, ← exactValue_zero] at hround
  obtain ⟨hfinite, hvalue⟩ := hround.exactValue_eq (by decide)
  exact ⟨hfinite, hvalue.trans exactValue_zero⟩

/-- A finite point is at no distance from itself. -/
theorem squaredDistance_self_le {p : Point Float} (h : FinitePoint p) :
    Point.squaredDistance p p ≤ 0.0 := by
  have hsum : ∀ total : Float, IsZero total →
      IsZero ((List.zipWith (fun x y => (x - y) * (x - y)) p p).foldl (fun total d => total + d) total) := by
    induction p with
    | nil => exact fun _ htotal => htotal
    | cons c rest ih =>
      obtain ⟨hc, hrest⟩ := List.forall_mem_cons.mp h
      intro total htotal
      exact ih hrest _ (htotal.add ((isZero_sub_self hc).mul (isZero_sub_self hc)))
  have hstart : IsZero (-0.0) := ⟨by decide, exactValue_of_zero (s := .negative) rfl⟩
  obtain ⟨hfinite, hvalue⟩ := hsum _ hstart
  exact (le_iff_exactValue_le hfinite (by decide)).mpr (hvalue.trans exactValue_zero.symm).le

/-! ### Counts -/

theorem two_pow_lt_overflowBound : (2 : ℚ) ^ 64 < overflowBound := by
  have hlow : (2 : ℚ) ^ 64 ≤ 2 ^ 970 := pow_le_pow_right₀ (by norm_num) (by norm_num)
  have hhigh : (2 : ℚ) ^ 1024 = 2 ^ 54 * 2 ^ 970 := by rw [← pow_add]
  have hpos : (0 : ℚ) < 2 ^ 970 := by positivity
  rw [overflowBound, hhigh]
  generalize (2 : ℚ) ^ 970 = step at hlow hpos ⊢
  linarith

/-- The number of some things as a double, if it is at least one and not more than a machine counts to. -/
theorem count_pos {n : ℕ} (hpos : 0 < n) (hlt : n < 2 ^ 64) :
    (n : Float).isFinite = true ∧ 0 < exactValue (n : Float) := by
  have hround := roundsToNearest_ofScientific n false 0
  rw [if_neg Bool.false_ne_true, Int.ofNat_zero, zpow_zero, mul_one] at hround
  have hfinite : (n : Float).isFinite = true := by
    refine hround.finite_iff.mpr ?_
    have hcast : (n : ℚ) < 2 ^ 64 := by exact_mod_cast hlt
    rw [abs_of_nonneg (Nat.cast_nonneg n)]
    exact hcast.trans two_pow_lt_overflowBound
  refine ⟨hfinite, ?_⟩
  -- One is not nearer to the count than the double is, and zero would be farther.
  have hone : (1 : ℚ) ≤ n := by exact_mod_cast hpos
  by_contra hle
  have hvalue : exactValue (n : Float) ≤ 0 := not_lt.mp hle
  have hdifferent : exactValue 1.0 ≠ exactValue (n : Float) := by
    rw [exactValue_one]
    linarith
  have hnear : |exactValue (n : Float) - n| ≤ |exactValue 1.0 - n| :=
    (hround.nearest hfinite 1.0 (by decide) hdifferent).elim le_of_lt fun h => h.1.le
  rw [exactValue_one, abs_of_nonpos (by linarith), abs_of_nonpos (by linarith)] at hnear
  linarith

end DelayTuning
