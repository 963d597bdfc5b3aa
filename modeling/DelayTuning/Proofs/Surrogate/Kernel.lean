import DelayTuning.Proofs.Surrogate.Factor
import DelayTuning.Surrogate.Regression

/-!
# Kernel matrices and the jitter on their diagonal

Without rounding the kernel matrix is symmetric, with the signal variance on its diagonal. The jitter of an
attempt is added less the jitter of the attempt before, which is on the diagonal already, so the matrix of
the last attempt is the kernel matrix with the last jitter on its diagonal.

## Main definitions

- `gram`: the kernel matrix of some points

## Main statements

- `kernel_comm`, `kernel_self`: the kernel of two points and of a point with itself
- `jitteredFactor?_gives`: the attempts to factor a matrix
- `matrixOf_addToDiagonal`: the kernel matrix with a jitter on its diagonal
-/

open Matrix

namespace DelayTuning

/-! ### The kernel -/

section

variable (signalVariance lengthScale : Exact ℝ) (a b : Point (Exact ℝ))

theorem squaredDistance_comm : Point.squaredDistance a b = Point.squaredDistance b a := by
  have hentry : (fun x y : Exact ℝ => (x - y) * (x - y)) = fun x y => (y - x) * (y - x) := by
    funext x y
    ext
    show (x.value - y.value) * (x.value - y.value) = (y.value - x.value) * (y.value - x.value)
    ring
  rw [Point.squaredDistance, Point.squaredDistance, List.zipWith_comm, hentry]

theorem kernel_comm : kernel signalVariance lengthScale a b = kernel signalVariance lengthScale b a := by
  rw [kernel, kernel, squaredDistance_comm]

/-- The kernel of a point with itself, whatever the length scale is. -/
theorem kernel_self : kernel signalVariance lengthScale a a = signalVariance := by
  have hdistance : (Point.squaredDistance a a).value = 0 := by
    rw [Exact.value_squaredDistance rfl rfl]
    simp
  have hexp : (RealScalar.exp (-0.5 * Point.squaredDistance a a / (lengthScale * lengthScale))).value = 1 := by
    show Real.exp ((-0.5 * Point.squaredDistance a a / (lengthScale * lengthScale) : Exact ℝ).value) = 1
    rw [Exact.value_div, Exact.value_mul, hdistance, mul_zero, zero_div, Real.exp_zero]
  ext
  rw [kernel, Exact.value_mul, hexp, mul_one]

end

/-- The kernel matrix of some points. -/
noncomputable def gram {n : ℕ} (signalVariance lengthScale : Exact ℝ) (u : Fin n → Point (Exact ℝ)) :
    Matrix (Fin n) (Fin n) ℝ :=
  Matrix.of fun i k => (kernel signalVariance lengthScale (u i) (u k)).value

theorem isSymm_gram {n : ℕ} (signalVariance lengthScale : Exact ℝ) (u : Fin n → Point (Exact ℝ)) :
    (gram signalVariance lengthScale u).IsSymm := by
  ext i k
  exact congrArg Exact.value (kernel_comm signalVariance lengthScale (u k) (u i))

/-! ### The jitter -/

theorem getElem?_addToDiagonal (x : Exact ℝ) (i : ℕ) (matrix : List (List (Exact ℝ))) (t : ℕ) :
    (addToDiagonal x i matrix)[t]? = matrix[t]?.map fun row => row.modify (i + t) fun d => d + x := by
  induction matrix generalizing i t with
  | nil => rfl
  | cons row rest ih =>
    cases t with
    | zero => rfl
    | succ t =>
      rw [addToDiagonal, List.getElem?_cons_succ, ih, List.getElem?_cons_succ, Nat.add_right_comm,
        Nat.add_assoc]

theorem length_addToDiagonal (x : Exact ℝ) (i : ℕ) (matrix : List (List (Exact ℝ))) :
    (addToDiagonal x i matrix).length = matrix.length := by
  induction matrix generalizing i with
  | nil => rfl
  | cons row rest ih => rw [addToDiagonal, List.length_cons, ih, List.length_cons]

theorem addToDiagonal_addToDiagonal (x y : Exact ℝ) (i : ℕ) (matrix : List (List (Exact ℝ))) :
    addToDiagonal x i (addToDiagonal y i matrix) = addToDiagonal (y + x) i matrix := by
  have hassoc : ((fun d : Exact ℝ => d + x) ∘ fun d => d + y) = fun d => d + (y + x) := by
    funext d
    ext
    exact add_assoc d.value y.value x.value
  induction matrix generalizing i with
  | nil => rfl
  | cons row rest ih =>
    rw [addToDiagonal, addToDiagonal, addToDiagonal, ih, List.modify_modify_eq, hassoc]

/-- The matrix of the last attempt carries the last jitter and nothing of the ones before: whatever is added
    to a diagonal that carries `added` already is added less this number. -/
theorem jitteredFactor?_carrying {tries : ℕ} {matrix carrying : List (List (Exact ℝ))}
    {added jitter last : Exact ℝ} {rows : List (TriangularRow (Exact ℝ))}
    (hcarrying : ∀ x, addToDiagonal (x - added) 0 carrying = addToDiagonal x 0 matrix)
    (h : jitteredFactor? tries carrying added jitter = some (rows, last)) :
    factor? (addToDiagonal last 0 matrix) = some rows ∧
      ∃ failed < tries, last.value = jitter.value * 10 ^ failed ∧
        ∀ m < failed, factor? (addToDiagonal ⟨jitter.value * 10 ^ m⟩ 0 matrix) = none := by
  induction tries generalizing carrying added jitter with
  | zero => cases h
  | succ tries ih =>
    rw [jitteredFactor?] at h
    simp only [hcarrying] at h
    split at h
    · next rows' hrows =>
      cases h
      exact ⟨hrows, 0, Nat.succ_pos tries, by simp, by simp⟩
    · next hnone =>
      have hnext : ∀ x, addToDiagonal (x - jitter) 0 (addToDiagonal jitter 0 matrix) =
          addToDiagonal x 0 matrix := by
        intro x
        have hcancel : jitter + (x - jitter) = x := by
          ext
          exact add_sub_cancel jitter.value x.value
        rw [addToDiagonal_addToDiagonal, hcancel]
      obtain ⟨hrows, failed, hfailed, hlast, hearlier⟩ := ih hnext h
      have hten : (jitter * 10.0).value = jitter.value * 10 := by
        rw [Exact.value_mul, Exact.value_ofScientific]
        norm_num
      refine ⟨hrows, failed + 1, Nat.succ_lt_succ hfailed, ?_, ?_⟩
      · rw [hlast, hten, pow_succ', mul_assoc]
      · intro m hm
        cases m with
        | zero => simpa using hnone
        | succ m =>
          rw [pow_succ', ← mul_assoc, ← hten]
          exact hearlier m (Nat.lt_of_succ_lt_succ hm)

/-- What a factor with a jitter is a factor of. The attempts before the one that gave it had none. -/
theorem jitteredFactor?_gives {tries : ℕ} {matrix : List (List (Exact ℝ))} {jitter last : Exact ℝ}
    {rows : List (TriangularRow (Exact ℝ))}
    (h : jitteredFactor? tries matrix 0.0 jitter = some (rows, last)) :
    factor? (addToDiagonal last 0 matrix) = some rows ∧
      ∃ failed < tries, last.value = jitter.value * 10 ^ failed ∧
        ∀ m < failed, factor? (addToDiagonal ⟨jitter.value * 10 ^ m⟩ 0 matrix) = none := by
  refine jitteredFactor?_carrying ?_ h
  intro x
  have hzero : x - 0.0 = x := by
    ext
    rw [Exact.value_sub, Exact.value_zero, sub_zero]
  rw [hzero]

/-- The kernel matrix with a number on its diagonal, as the fit makes it. -/
theorem matrixOf_addToDiagonal {n : ℕ} (signalVariance lengthScale x : Exact ℝ)
    (u : Fin n → Point (Exact ℝ)) :
    matrixOf n (addToDiagonal x 0 (Regression.kernelMatrix signalVariance lengthScale (List.ofFn u))) =
      gram signalVariance lengthScale u + x.value • (1 : Matrix (Fin n) (Fin n) ℝ) := by
  ext i k
  have hkernels : (Regression.kernelMatrix signalVariance lengthScale (List.ofFn u))[(i : ℕ)]? =
      some ((List.ofFn u).map fun b => kernel signalVariance lengthScale (u i) b) := by
    simp [Regression.kernelMatrix]
  have hrow := getElem?_addToDiagonal x 0
    (Regression.kernelMatrix signalVariance lengthScale (List.ofFn u)) (i : ℕ)
  rw [hkernels, Nat.zero_add, Option.map_some] at hrow
  have hentry : (((List.ofFn u).map fun b => kernel signalVariance lengthScale (u i) b).modify (i : ℕ)
      fun d => d + x)[(k : ℕ)]? =
      some (if i = k then kernel signalVariance lengthScale (u i) (u k) + x
        else kernel signalVariance lengthScale (u i) (u k)) := by
    have hpoint : (List.ofFn u)[(k : ℕ)]? = some (u k) := by simp
    rw [List.getElem?_modify, List.getElem?_map, hpoint]
    simp [Fin.val_inj]
  rw [matrixOf_apply hrow hentry]
  by_cases hik : i = k
  · simp [gram, hik]
  · simp [gram, hik]

end DelayTuning
