import DelayTuning.Proofs.Space.Exact
import DelayTuning.Proofs.Surrogate.Kernel

/-!
# Regression without rounding

The weights of a model solve the system of the kernel matrix with the jitter on its diagonal. What the
jitter takes away from this system is what the mean of the model misses at its own points, and the rows of
the factor, which are as long as their points allow, leave no more variance there than the jitter.

## Main definitions

- `targetMean`, `targetSpread`: how the targets are standardized
- `Regression.IsFitOf`: the model of some points and targets

## Main statements

- `Regression.isFitOf_of_fit?`: what the fit gives
- `Regression.IsFitOf.value_predict_mean`: the mean at the points of the model
- `Regression.IsFitOf.predict_deviation_sq_le_jitter`: the deviation at the points of the model
- `Regression.exact_predictions`: these together, for the points of a space
-/

open Matrix

namespace DelayTuning

/-! ### Standardized targets -/

section

variable {n : ℕ}

/-- The mean of the targets. -/
noncomputable def targetMean (y : Fin n → ℝ) : ℝ := (∑ i, y i) / n

/-- The standard deviation of the targets; one if it is next to nothing. -/
noncomputable def targetSpread (y : Fin n → ℝ) : ℝ :=
  let root := √((∑ i, (y i - targetMean y) ^ 2) / n)
  if 1e-12 < root then root else 1

theorem targetSpread_pos (y : Fin n → ℝ) : 0 < targetSpread y := by
  rw [targetSpread]
  split
  · next hroot =>
    have hleast : (0 : ℝ) < 1e-12 := by norm_num
    exact hleast.trans hroot
  · exact one_pos

theorem value_sum_map_ofVector (f : Exact ℝ → Exact ℝ) (y : Fin n → ℝ) :
    (Scalar.sum ((Point.ofVector y).map f)).value = ∑ i, (f ⟨y i⟩).value := by
  rw [Exact.value_sum, Point.ofVector, List.map_map, List.map_ofFn, List.sum_ofFn]
  rfl

theorem value_mean (y : Fin n → ℝ) : (Regression.mean (Point.ofVector y)).value = targetMean y := by
  have hsum := value_sum_map_ofVector id y
  rw [List.map_id] at hsum
  rw [Regression.mean, Exact.value_div, hsum, Exact.value_natCast, Point.length_ofVector]
  rfl

theorem value_deviation {centre : Exact ℝ} {y : Fin n → ℝ} (hcentre : centre.value = targetMean y) :
    (Regression.deviation (Point.ofVector y) centre).value = targetSpread y := by
  have hroot : (RealScalar.sqrt (Scalar.sum ((Point.ofVector y).map fun c => (c - centre) * (c - centre)) /
      ((Point.ofVector y).length : Exact ℝ))).value = √((∑ i, (y i - targetMean y) ^ 2) / n) := by
    show √(_ / _) = _
    simp only [value_sum_map_ofVector, Point.length_ofVector, Exact.value_mul, Exact.value_sub, hcentre,
      ← pow_two]
    rfl
  have hone : (1.0 : Exact ℝ).value = 1 := Exact.value_one
  rw [Regression.deviation, targetSpread]
  simp only [Exact.lt_iff, hroot, apply_ite Exact.value, hone]
  rfl

/-- The standardized targets. -/
theorem vector_standardize {centre spread : Exact ℝ} (y : Fin n → ℝ) :
    Point.vector n (Regression.standardize (Point.ofVector y) centre spread) =
      fun i => (y i - centre.value) / spread.value := by
  funext i
  have hentry : (Regression.standardize (Point.ofVector y) centre spread)[(i : ℕ)]? =
      some ((⟨y i⟩ - centre) / spread) := by
    rw [Regression.standardize, List.getElem?_map, Point.getElem?_ofVector]
    rfl
  rw [Point.vector_apply hentry]
  rfl

end

/-! ### The fit -/

namespace Regression

variable {n : ℕ} {config : KernelConfig (Exact ℝ)} {dimension : ℕ} {u : Fin n → Point (Exact ℝ)}
  {y : Fin n → ℝ} {model : Regression (Exact ℝ)}

theorem value_firstJitter (config : KernelConfig (Exact ℝ)) :
    (firstJitter config).value = max config.noise.value 1e-10 :=
  Exact.value_maxNum _ _

theorem firstJitter_pos (config : KernelConfig (Exact ℝ)) : 0 < (firstJitter config).value := by
  have hleast : (0 : ℝ) < 1e-10 := by norm_num
  rw [value_firstJitter]
  exact lt_max_of_lt_right hleast

/-- The kernel of a point and the points of a model. -/
noncomputable def similarities (model : Regression (Exact ℝ)) (signalVariance : Exact ℝ)
    (x : Point (Exact ℝ)) : Point (Exact ℝ) :=
  model.inputs.map fun b => kernel signalVariance model.lengthScale x b

/-- The model of the points `u` of a cube and the targets `y`. The jitter is that of the first attempt that
    gave a factor. -/
structure IsFitOf (model : Regression (Exact ℝ)) (config : KernelConfig (Exact ℝ)) (dimension : ℕ)
    (u : Fin n → Point (Exact ℝ)) (y : Fin n → ℝ) : Prop where
  lengthScale : model.lengthScale = config.lengthScale.getD (medianDistance (List.ofFn u) dimension)
  inputs : model.inputs = List.ofFn u
  mean : model.valueMean.value = targetMean y
  spread : model.valueDeviation.value = targetSpread y
  jitter : ∃ failed < jitterTries, model.jitter.value = (firstJitter config).value * 10 ^ failed ∧
    ∀ m < failed, factor? (addToDiagonal ⟨(firstJitter config).value * 10 ^ m⟩ 0
      (kernelMatrix config.signalVariance model.lengthScale (List.ofFn u))) = none
  length : model.rows.length = n
  triangular : IsTriangularFrom 0 model.rows
  factor : lowerMatrix n model.rows * (lowerMatrix n model.rows)ᵀ =
    gram config.signalVariance model.lengthScale u + model.jitter.value • (1 : Matrix (Fin n) (Fin n) ℝ)
  length_weights : model.weights.length = n
  weights : (lowerMatrix n model.rows * (lowerMatrix n model.rows)ᵀ) *ᵥ Point.vector n model.weights =
    fun i => (y i - targetMean y) / targetSpread y

theorem isFitOf_of_fit? (h : fit? config dimension (List.ofFn u) (Point.ofVector y) = some model) :
    model.IsFitOf config dimension u y := by
  rw [fit?] at h
  split at h
  · next rows jitter hjitter =>
    obtain rfl := Option.some.inj h
    obtain ⟨hrows, hattempts⟩ := jitteredFactor?_gives hjitter
    have hfactor := isFactor_of_factor? hrows
    have hsize : (addToDiagonal jitter 0 (kernelMatrix config.signalVariance
        (config.lengthScale.getD (medianDistance (List.ofFn u) dimension)) (List.ofFn u))).length = n := by
      rw [length_addToDiagonal, kernelMatrix, List.length_map, List.length_ofFn]
    have hlength := hfactor.length.trans hsize
    have hproduct := hfactor.mul_transpose hsize
    rw [matrixOf_addToDiagonal] at hproduct
    have hmean := value_mean y
    have hspread := value_deviation hmean
    have htargets : (standardize (Point.ofVector y) (mean (Point.ofVector y))
        (deviation (Point.ofVector y) (mean (Point.ofVector y)))).length = n := by
      rw [standardize, List.length_map, Point.length_ofVector]
    have hlower := length_solveLower hfactor.triangular (htargets.trans hlength.symm)
    refine ⟨rfl, rfl, hmean, hspread, hattempts, hlength, hfactor.triangular, hproduct ?_, ?_, ?_⟩
    · exact (isSymm_gram _ _ u).add (isSymm_one.smul _)
    · exact (length_solveUpper hfactor.triangular hlower).trans hlength
    · rw [mulVec_solveUpper_solveLower hfactor.triangular hlength htargets, vector_standardize, hmean,
        hspread]
  · cases h

namespace IsFitOf

variable (h : model.IsFitOf config dimension u y)

include h

theorem jitter_pos : 0 < model.jitter.value := by
  obtain ⟨failed, -, hjitter, -⟩ := h.jitter
  rw [hjitter]
  exact mul_pos (firstJitter_pos config) (by positivity)

theorem length_similarities (x : Point (Exact ℝ)) :
    (model.similarities config.signalVariance x).length = n := by
  rw [similarities, h.inputs, List.length_map, List.length_ofFn]

theorem vector_similarities (x : Point (Exact ℝ)) :
    Point.vector n (model.similarities config.signalVariance x) =
      fun k => (kernel config.signalVariance model.lengthScale x (u k)).value := by
  funext k
  refine Point.vector_apply ?_
  have hpoint : (List.ofFn u)[(k : ℕ)]? = some (u k) := by simp
  rw [similarities, h.inputs, List.getElem?_map, hpoint]
  rfl

/-- The weights solve the system of the kernel matrix with the jitter on its diagonal. -/
theorem mulVec_weights :
    (gram config.signalVariance model.lengthScale u + model.jitter.value • (1 : Matrix (Fin n) (Fin n) ℝ)) *ᵥ
        Point.vector n model.weights = fun i => (y i - targetMean y) / targetSpread y :=
  h.factor ▸ h.weights

/-- At a point of the model the mean misses the target by what the jitter does in the system for the
    weights. -/
theorem value_predict_mean (i : Fin n) :
    (model.predict config.signalVariance (u i)).1.value =
      y i - targetSpread y * model.jitter.value * Point.vector n model.weights i := by
  have hdot : (Point.dot (model.similarities config.signalVariance (u i)) model.weights).value =
      (gram config.signalVariance model.lengthScale u *ᵥ Point.vector n model.weights) i := by
    rw [Point.value_dot_eq (h.length_similarities (u i)).le, h.vector_similarities]
    rfl
  have hsystem := congrFun h.mulVec_weights i
  rw [add_mulVec, smul_mulVec, one_mulVec] at hsystem
  have hspread := (targetSpread_pos y).ne'
  have hmean : (model.predict config.signalVariance (u i)).1.value = model.valueMean.value +
      model.valueDeviation.value *
        (Point.dot (model.similarities config.signalVariance (u i)) model.weights).value := rfl
  rw [hmean, hdot, h.mean, h.spread, eq_sub_of_add_eq hsystem]
  simp only [Pi.smul_apply, smul_eq_mul]
  field_simp
  ring

/-- The deviation at a point, by the solution of the system with the factor and the kernel of the point. -/
theorem exists_predict_deviation (x : Point (Exact ℝ)) :
    ∃ v : Fin n → ℝ,
      lowerMatrix n model.rows *ᵥ v =
        (fun k => (kernel config.signalVariance model.lengthScale x (u k)).value) ∧
      0 ≤ (model.predict config.signalVariance x).2.value ∧
      (model.predict config.signalVariance x).2.value ^ 2 =
        targetSpread y ^ 2 * max (config.signalVariance.value - v ⬝ᵥ v) 0 := by
  have hlength := h.length_similarities x
  have hsolution := length_solveLower h.triangular (hlength.trans h.length.symm)
  refine ⟨Point.vector n (solveLower model.rows (model.similarities config.signalVariance x)), ?_, ?_⟩
  · rw [mulVec_solveLower h.triangular h.length hlength, h.vector_similarities]
  · have hvariance : (model.variance config.signalVariance
        (model.similarities config.signalVariance x)).value = _ :=
      Exact.value_maxNum _ _
    rw [Exact.value_sub, Point.value_dot_eq (hsolution.trans h.length).le, Exact.value_zero] at hvariance
    have hdeviation : (model.predict config.signalVariance x).2.value = targetSpread y * √_ :=
      congrArg₂ (fun a b => a * √b) h.spread hvariance
    rw [hdeviation]
    refine ⟨mul_nonneg (targetSpread_pos y).le (Real.sqrt_nonneg _), ?_⟩
    rw [mul_pow, Real.sq_sqrt (le_max_right _ _)]

/-- At a point of the model no more variance is left than the jitter. -/
theorem predict_deviation_sq_le_jitter (i : Fin n) :
    (model.predict config.signalVariance (u i)).2.value ^ 2 ≤ targetSpread y ^ 2 * model.jitter.value := by
  obtain ⟨v, hv, -, hsquare⟩ := h.exists_predict_deviation (u i)
  -- Row `i` of the factor is as long as the jitter makes it, but its product with `v` has no jitter in it.
  have hself : (lowerMatrix n model.rows).row i ⬝ᵥ (lowerMatrix n model.rows).row i =
      config.signalVariance.value + model.jitter.value := by
    have hdiagonal := congrFun (congrFun h.factor i) i
    simp only [gram, Matrix.add_apply, Matrix.smul_apply, of_apply, one_apply_eq, kernel_self, smul_eq_mul,
      mul_one] at hdiagonal
    exact hdiagonal
  have hcross : (lowerMatrix n model.rows).row i ⬝ᵥ v = config.signalVariance.value := by
    have hentry := congrFun hv i
    rw [kernel_self] at hentry
    exact hentry
  have hlong := two_mul_dotProduct_sub_le ((lowerMatrix n model.rows).row i) v
  rw [hself, hcross] at hlong
  rw [hsquare]
  refine mul_le_mul_of_nonneg_left (max_le ?_ h.jitter_pos.le) (sq_nonneg _)
  linarith

/-- Nowhere is there more variance than the kernel has. -/
theorem predict_deviation_sq_le_signalVariance (hsignal : 0 ≤ config.signalVariance.value)
    (x : Point (Exact ℝ)) :
    (model.predict config.signalVariance x).2.value ^ 2 ≤
      targetSpread y ^ 2 * config.signalVariance.value := by
  obtain ⟨v, -, -, hsquare⟩ := h.exists_predict_deviation x
  rw [hsquare]
  exact mul_le_mul_of_nonneg_left (max_le (sub_le_self _ (dotProduct_self_nonneg v)) hsignal) (sq_nonneg _)

end IsFitOf

/-- **Regression without rounding.** A model that is fit on the points `x` of a space and the targets `y`,
    points more than once included, has weights that solve the system of the kernel matrix with the jitter
    of the last attempt on its diagonal. At the points of the model its mean misses the target by the
    product of the weight and the jitter, and its squared deviation is at most the jitter, both in the units
    of the targets; nowhere is the squared deviation above the signal variance. -/
theorem exact_predictions {s : Space (Exact ℝ)} {x : Fin n → Point (Exact ℝ)}
    (h : fit? config s.dimension (List.ofFn fun i => s.toUnit (x i)) (Point.ofVector y) = some model) :
    let u := fun i => s.toUnit (x i)
    let ℓ := config.lengthScale.getD (medianDistance (List.ofFn u) s.dimension)
    let K := gram config.signalVariance ℓ u
    let j := model.jitter.value
    let σ := targetSpread y
    ∃ α : Fin n → ℝ, model.weights = Point.ofVector α ∧
      (0 < j ∧ ∃ failed < jitterTries, j = max config.noise.value 1e-10 * 10 ^ failed ∧
        ∀ m < failed, factor? (addToDiagonal ⟨max config.noise.value 1e-10 * 10 ^ m⟩ 0
          (kernelMatrix config.signalVariance ℓ (List.ofFn u))) = none) ∧
      (K + j • (1 : Matrix (Fin n) (Fin n) ℝ)) *ᵥ α = (fun i => (y i - targetMean y) / σ) ∧
      (∀ i, (model.predict config.signalVariance (u i)).1.value = y i - σ * j * α i ∧
        0 ≤ (model.predict config.signalVariance (u i)).2.value ∧
        (model.predict config.signalVariance (u i)).2.value ^ 2 ≤ σ ^ 2 * j) ∧
      (0 ≤ config.signalVariance.value → ∀ z,
        (model.predict config.signalVariance z).2.value ^ 2 ≤ σ ^ 2 * config.signalVariance.value) := by
  intro u ℓ K j σ
  have hfit := isFitOf_of_fit? h
  have hscale : model.lengthScale = ℓ := hfit.lengthScale
  refine ⟨Point.vector n model.weights, (Point.ofVector_vector hfit.length_weights).symm,
    ⟨hfit.jitter_pos, ?_⟩, ?_, ?_, hfit.predict_deviation_sq_le_signalVariance⟩
  · rw [← value_firstJitter, ← hscale]
    exact hfit.jitter
  · rw [← hfit.mulVec_weights, hscale]
  · intro i
    obtain ⟨-, -, hnonneg, -⟩ := hfit.exists_predict_deviation (u i)
    exact ⟨hfit.value_predict_mean i, hnonneg, hfit.predict_deviation_sq_le_jitter i⟩

/-- There is a model if the first attempt gives a factor. -/
theorem exists_fit? {inputs : List (Point (Exact ℝ))} {values : List (Exact ℝ)}
    {rows : List (TriangularRow (Exact ℝ))}
    (h : factor? (addToDiagonal (firstJitter config - 0.0) 0 (kernelMatrix config.signalVariance
      (config.lengthScale.getD (medianDistance inputs dimension)) inputs)) = some rows) :
    ∃ model, fit? config dimension inputs values = some model := by
  simp [fit?, jitterTries, jitteredFactor?, h]

/-- One parameter between zero and one. -/
def unitSpace : Space (Exact ℝ) where
  parameters := [⟨"slope", ⟨0⟩, ⟨1⟩⟩]
  wellFormed := ⟨by simp, by simp [Parameter.bounded_iff_le], by simp⟩

/-- A kernel with as much noise as signal. -/
def noisyConfig : KernelConfig (Exact ℝ) where
  lengthScale := some ⟨1⟩
  signalVariance := ⟨1⟩
  noise := ⟨1⟩

/-- A point that was measured twice, with different results, still has a model. -/
theorem exists_fit?_twice (p : Point (Exact ℝ)) :
    ∃ model, fit? noisyConfig dimension (List.ofFn fun _ : Fin 2 => p) (Point.ofVector ![0, 1]) =
      some model := by
  have hmatrix : ∀ x ℓ : Exact ℝ,
      addToDiagonal x 0 (kernelMatrix ⟨1⟩ ℓ (List.ofFn fun _ : Fin 2 => p)) =
        [[⟨1⟩ + x, ⟨1⟩], [⟨1⟩, ⟨1⟩ + x]] := by
    intro x ℓ
    simp [kernelMatrix, List.ofFn_succ, kernel_self, addToDiagonal]
  have hjitter : (firstJitter noisyConfig - 0.0).value = 1 := by
    rw [Exact.value_sub, value_firstJitter, Exact.value_zero, sub_zero]
    show max (1 : ℝ) 1e-10 = 1
    norm_num
  obtain ⟨rows, hrows⟩ := exists_factor?_two (a := ⟨1⟩ + (firstJitter noisyConfig - 0.0)) (b := ⟨1⟩)
    (c := ⟨1⟩) (d := ⟨1⟩ + (firstJitter noisyConfig - 0.0)) (by simp [hjitter]) (by norm_num [hjitter])
  exact exists_fit? ((congrArg factor? (hmatrix _ _)).trans hrows)

/-- The deviations of the model of a point that was measured twice, there and somewhere else. -/
theorem exact_predictions_twice :
    ∃ model : Regression (Exact ℝ),
      fit? noisyConfig unitSpace.dimension (List.ofFn fun _ : Fin 2 => unitSpace.toUnit [⟨0⟩])
        (Point.ofVector ![0, 1]) = some model ∧
      0 < model.jitter.value ∧
      (model.predict noisyConfig.signalVariance (unitSpace.toUnit [⟨0⟩])).2.value ^ 2 ≤
        targetSpread ![0, 1] ^ 2 * model.jitter.value ∧
      (model.predict noisyConfig.signalVariance (unitSpace.toUnit [⟨1⟩])).2.value ^ 2 ≤
        targetSpread ![0, 1] ^ 2 * 1 := by
  obtain ⟨model, h⟩ := exists_fit?_twice (unitSpace.toUnit [⟨0⟩])
  obtain ⟨α, -, ⟨hjitter, -⟩, -, htraining, heverywhere⟩ := exact_predictions (x := fun _ => [⟨0⟩]) h
  exact ⟨model, h, hjitter, (htraining 0).2.2, heverywhere zero_le_one _⟩

end Regression

end DelayTuning
