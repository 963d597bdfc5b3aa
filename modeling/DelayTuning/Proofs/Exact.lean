import DelayTuning.Point
import Mathlib

/-!
# Exact arithmetic

The numbers of an ordered field, the rationals or the reals, are scalars of which every one is finite. The
algorithms over these scalars are what they would be without rounding, and the sums in them are the sums of
algebra: in which order they are taken does not matter.

## Main definitions

- `Exact`: the numbers of an ordered field, as scalars
- `Point.values`: the coordinates of a point, as numbers of the field

## Main statements

- `Exact.value_sum`, `Exact.value_squaredDistance`: the sums of the algorithms as sums of algebra
- `sum_sq_sub_mean_le`: the mean of some numbers is where the sum of the squared differences is least
- `exists_le_mean`, `exists_mean_le`: the mean of some numbers lies between two of them
-/

namespace DelayTuning

/-- A number that is calculated with exactly. -/
@[ext]
structure Exact (K : Type) where
  value : K
  deriving DecidableEq

variable {K : Type} [Field K] [LinearOrder K]

/-- The arithmetic of an ordered field. -/
instance Exact.instScalar : Scalar (Exact K) where
  add x y := ⟨x.value + y.value⟩
  sub x y := ⟨x.value - y.value⟩
  mul x y := ⟨x.value * y.value⟩
  div x y := ⟨x.value / y.value⟩
  neg x := ⟨-x.value⟩
  lt x y := x.value < y.value
  le x y := x.value ≤ y.value
  beq x y := decide (x.value = y.value)
  natCast n := ⟨n⟩
  ofScientific mantissa negative exponent :=
    ⟨OfScientific.ofScientific mantissa negative exponent⟩
  decLt x y := inferInstanceAs (Decidable (x.value < y.value))
  decLe x y := inferInstanceAs (Decidable (x.value ≤ y.value))
  isFinite _ := true

/-- The arithmetic of the real numbers. -/
noncomputable instance Exact.instRealScalar : RealScalar (Exact ℝ) where
  sqrt x := ⟨Real.sqrt x.value⟩
  exp x := ⟨Real.exp x.value⟩

/-- The coordinates of a point as numbers. -/
def Point.values (x : Point (Exact K)) : List K :=
  x.map Exact.value

omit [Field K] [LinearOrder K] in
theorem Point.getD_values {x : Point (Exact K)} {j : ℕ} (h : j < x.length) (default : K) :
    x.values.getD j default = x[j].value := by
  have hlength : j < x.values.length := (List.length_map Exact.value).symm ▸ h
  rw [List.getD_eq_getElem _ _ hlength]
  exact List.getElem_map _

namespace Exact

/-! ### Operations -/

section

variable (x y : Exact K)

@[simp]
theorem value_add : (x + y).value = x.value + y.value := rfl

@[simp]
theorem value_sub : (x - y).value = x.value - y.value := rfl

@[simp]
theorem value_mul : (x * y).value = x.value * y.value := rfl

@[simp]
theorem value_div : (x / y).value = x.value / y.value := rfl

@[simp]
theorem value_natCast (n : ℕ) : (n : Exact K).value = n := rfl

theorem value_ofScientific (mantissa : ℕ) (negative : Bool) (exponent : ℕ) :
    (OfScientific.ofScientific mantissa negative exponent : Exact K).value =
      OfScientific.ofScientific mantissa negative exponent := rfl

variable {x y}

theorem lt_iff : x < y ↔ x.value < y.value := Iff.rfl

theorem le_iff : x ≤ y ↔ x.value ≤ y.value := Iff.rfl

theorem beq_iff : (x == y) = true ↔ x = y := by
  rw [Exact.ext_iff]
  exact decide_eq_true_iff

theorem value_minNum (x y : Exact K) : (Scalar.minNum x y).value = min x.value y.value := by
  rw [Scalar.minNum, if_pos (beq_iff.mpr rfl), min_def_lt]
  exact apply_ite value _ x y

theorem value_maxNum (x y : Exact K) : (Scalar.maxNum x y).value = max x.value y.value := by
  rw [Scalar.maxNum, if_pos (beq_iff.mpr rfl), max_comm, max_def_lt]
  exact apply_ite value _ x y

end

/-! ### Sums -/

variable [IsStrictOrderedRing K]

@[simp]
theorem value_zero : (0.0 : Exact K).value = 0 := by
  have hzero : (0.0 : K) = 0 := by norm_num
  exact hzero

@[simp]
theorem value_one : (1.0 : Exact K).value = 1 := by
  have hone : (1.0 : K) = 1 := by norm_num
  exact hone

theorem value_sum (xs : List (Exact K)) : (Scalar.sum xs).value = (xs.map value).sum := by
  have hstart : (-0.0 : Exact K).value = 0 := (congrArg Neg.neg value_zero).trans neg_zero
  have hsum : ∀ total : Exact K,
      (xs.foldl (fun total x => total + x) total).value = total.value + (xs.map value).sum := by
    induction xs with
    | nil => simp
    | cons x rest ih =>
      intro total
      rw [List.foldl_cons, ih, List.map_cons, List.sum_cons, ← add_assoc]
      rfl
  rw [Scalar.sum, hsum, hstart, zero_add]

/-- The squared distance of two points of one dimension, coordinate by coordinate. -/
theorem value_squaredDistance {dimension : ℕ} {a b : Point (Exact K)} (ha : a.length = dimension)
    (hb : b.length = dimension) :
    (Point.squaredDistance a b).value =
      ∑ j ∈ Finset.range dimension, (a.values.getD j 0 - b.values.getD j 0) ^ 2 := by
  rw [Point.squaredDistance, value_sum]
  induction dimension generalizing a b with
  | zero =>
    rw [List.length_eq_zero_iff.mp ha]
    rfl
  | succ dimension ih =>
    obtain ⟨x, a, rfl⟩ := List.exists_cons_of_length_eq_add_one ha
    obtain ⟨y, b, rfl⟩ := List.exists_cons_of_length_eq_add_one hb
    have hrest := ih (Nat.succ_injective ha) (Nat.succ_injective hb)
    rw [List.zipWith_cons_cons, List.map_cons, List.sum_cons, hrest, Finset.sum_range_succ',
      add_comm, pow_two]
    rfl

end Exact

/-! ### Means -/

omit [LinearOrder K] in
/-- The sum of the squared differences from a number, by the sum of the squares. -/
theorem sum_sq_sub (xs : List K) (c : K) :
    (xs.map fun x => (x - c) ^ 2).sum =
      (xs.map fun x => x ^ 2).sum - 2 * c * xs.sum + xs.length * c ^ 2 := by
  induction xs with
  | nil => simp
  | cons x rest ih =>
    simp only [List.map_cons, List.sum_cons, List.length_cons, ih, Nat.cast_add, Nat.cast_one]
    ring

/-- No number has a smaller sum of squared differences than the mean. -/
theorem sum_sq_sub_mean_le [IsStrictOrderedRing K] {xs : List K} (hxs : xs ≠ []) (c : K) :
    (xs.map fun x => (x - xs.sum / xs.length) ^ 2).sum ≤ (xs.map fun x => (x - c) ^ 2).sum := by
  have hcount : (xs.length : K) ≠ 0 := Nat.cast_ne_zero.mpr (List.length_pos_of_ne_nil hxs).ne'
  have hsum : xs.length * (xs.sum / xs.length) = xs.sum := mul_div_cancel₀ xs.sum hcount
  generalize xs.sum / xs.length = mean at hsum ⊢
  have hexcess : 0 ≤ (xs.length : K) * (mean - c) ^ 2 := mul_nonneg (Nat.cast_nonneg _) (sq_nonneg _)
  rw [sum_sq_sub, sum_sq_sub, ← hsum]
  linarith [hexcess]

section

variable [IsStrictOrderedRing K] {xs : List K}

theorem sum_map_mean (hxs : xs ≠ []) : (xs.map fun _ => xs.sum / xs.length).sum = xs.sum := by
  have hcount : (xs.length : K) ≠ 0 := Nat.cast_ne_zero.mpr (List.length_pos_of_ne_nil hxs).ne'
  rw [List.map_const', List.sum_replicate, nsmul_eq_mul, mul_div_cancel₀ _ hcount]

/-- Not all numbers are above their mean. -/
theorem exists_le_mean (hxs : xs ≠ []) : ∃ x ∈ xs, x ≤ xs.sum / xs.length := by
  refine List.exists_le_of_sum_le hxs id (fun _ => xs.sum / xs.length) ?_
  rw [sum_map_mean hxs, List.map_id]

/-- Not all numbers are below their mean. -/
theorem exists_mean_le (hxs : xs ≠ []) : ∃ x ∈ xs, xs.sum / xs.length ≤ x := by
  refine List.exists_le_of_sum_le hxs (fun _ => xs.sum / xs.length) id ?_
  rw [sum_map_mean hxs, List.map_id]

end

end DelayTuning
