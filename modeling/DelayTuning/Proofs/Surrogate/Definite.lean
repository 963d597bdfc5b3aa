import DelayTuning.Proofs.Surrogate.Factor

/-!
# Positive definite matrices

Without rounding a symmetric matrix has a factor exactly if it is positive definite. A product of a triangular
matrix with its transpose is positive definite, since the positive diagonal makes it invertible. The other way
round the rows of the factor are found one after the other: what a new row leaves of the diagonal entry is the
value of the quadratic form at a vector that solves the system of the rows above, so it is positive and has a
square root to go on with.

## Main definitions

- `rowsOf`: the rows of a matrix as lists

## Main statements

- `posDef_lowerMatrix_mul_transpose`: the products that are factored
- `dotProduct_self_lt_of_posDef`: what a new row leaves of the diagonal entry
- `exists_factor?_of_posDef`: a positive definite matrix has a factor
- `factor?_solves`: which matrices have a factor, and what is solved with it
-/

open Matrix

namespace DelayTuning

variable {n : ℕ}

/-- The rows of a matrix as lists. -/
def rowsOf (A : Matrix (Fin n) (Fin n) ℝ) : List (Point (Exact ℝ)) :=
  List.ofFn fun i => Point.ofVector (A i)

section Rows

variable (A : Matrix (Fin n) (Fin n) ℝ)

@[simp]
theorem length_rowsOf : (rowsOf A).length = n := List.length_ofFn

theorem getElem?_rowsOf (i : Fin n) : (rowsOf A)[(i : ℕ)]? = some (Point.ofVector (A i)) := by
  simp [rowsOf]

/-- The first rows of a matrix, cut to a square. -/
theorem matrixOf_take_rowsOf {m : ℕ} (hm : m ≤ n) :
    matrixOf m ((rowsOf A).take m) = A.submatrix (Fin.castLE hm) (Fin.castLE hm) := by
  ext i k
  refine matrixOf_apply ?_ (Point.getElem?_ofVector (A (Fin.castLE hm i)) (Fin.castLE hm k))
  rw [List.getElem?_take_of_lt i.isLt]
  exact getElem?_rowsOf A (Fin.castLE hm i)

theorem matrixOf_rowsOf : matrixOf n (rowsOf A) = A := by
  have h := matrixOf_take_rowsOf A le_rfl
  rwa [List.take_of_length_le (length_rowsOf A).le] at h

end Rows

/-! ### Products of triangular matrices -/

section Triangular

variable {rows : List (TriangularRow (Exact ℝ))} {r : TriangularRow (Exact ℝ)} {t : ℕ}

theorem IsTriangularFrom.diagonal_pos {i : ℕ} (h : IsTriangularFrom i rows) :
    ∀ r ∈ rows, 0 < r.diagonal.value := by
  induction rows generalizing i with
  | nil => simp
  | cons s rest ih =>
    obtain ⟨-, hs, hrest⟩ := h
    exact List.forall_mem_cons.mpr ⟨hs, ih hrest⟩

variable (h : IsTriangularFrom 0 rows) (hlength : rows.length = n)

include h hlength

theorem isLowerTriangular_lowerMatrix : (lowerMatrix n rows).IsLowerTriangular := by
  intro i k hik
  have hlt : i < k := hik
  obtain ⟨r, hr⟩ := exists_getElem? hlength i
  have hshort : r.left.length < k := by
    rw [h.length_left hr, Nat.zero_add]
    exact hlt
  rw [lowerMatrix_row hr, Point.vector, ← Point.value_getD, r.getD_entries_right 0.0 hshort,
    Exact.value_zero]

theorem lowerMatrix_diagonal_pos (i : Fin n) : 0 < lowerMatrix n rows i i := by
  obtain ⟨r, hr⟩ := exists_getElem? hlength i
  have hleft : r.left.length = i := by
    rw [h.length_left hr, Nat.zero_add]
  rw [lowerMatrix_row hr, Point.vector, ← Point.value_getD, r.getD_entries_diagonal 0.0 hleft]
  exact h.diagonal_pos r (List.mem_of_getElem? hr)

/-- The product of a triangular matrix with its transpose is positive definite. -/
theorem posDef_lowerMatrix_mul_transpose : (lowerMatrix n rows * (lowerMatrix n rows)ᵀ).PosDef := by
  have hdet : (lowerMatrix n rows).det ≠ 0 := by
    rw [det_of_isLowerTriangular _ (isLowerTriangular_lowerMatrix h hlength)]
    exact Finset.prod_ne_zero_iff.mpr fun i _ => (lowerMatrix_diagonal_pos h hlength i).ne'
  have hunit : IsUnit (lowerMatrix n rows) := (isUnit_iff_isUnit_det _).mpr hdet.isUnit
  have hproduct := PosDef.mul_conjTranspose_self _ (vecMul_injective_of_isUnit hunit)
  rwa [conjTranspose_eq_transpose_of_trivial] at hproduct

end Triangular

/-! ### The factor of a positive definite matrix -/

/-- What the entries `s` of a new row leave of the diagonal entry is the value of the quadratic form at the
    vector that ends with one and whose product with the rows above is zero. -/
theorem dotProduct_self_lt_of_posDef {t : ℕ} {B : Matrix (Fin (t + 1)) (Fin (t + 1)) ℝ} (hB : B.PosDef)
    {L : Matrix (Fin t) (Fin t) ℝ} (hL : L * Lᵀ = B.submatrix Fin.castSucc Fin.castSucc)
    {s x : Fin t → ℝ} (hs : L *ᵥ s = fun i => B (Fin.last t) i.castSucc) (hx : Lᵀ *ᵥ x = s) :
    s ⬝ᵥ s < B (Fin.last t) (Fin.last t) := by
  -- The last column of `B` is the combination `x` of the others, as far as the rows above go.
  let v : Fin (t + 1) → ℝ := Fin.snoc (-x) 1
  have hv : v ≠ 0 := by
    intro hzero
    have hlast := congrFun hzero (Fin.last t)
    simp [v] at hlast
  have habove : ∀ i : Fin t, (B *ᵥ v) i.castSucc = 0 := by
    intro i
    have hrow : ∑ k, B i.castSucc k.castSucc * x k = B i.castSucc (Fin.last t) := by
      calc ∑ k, B i.castSucc k.castSucc * x k
        _ = ((L * Lᵀ) *ᵥ x) i := by rw [hL]; rfl
        _ = B (Fin.last t) i.castSucc := by rw [← mulVec_mulVec, hx, hs]
        _ = B i.castSucc (Fin.last t) := hB.isHermitian.apply _ _
    rw [mulVec, dotProduct, Fin.sum_univ_castSucc]
    simp [v, hrow]
  have hlast : (B *ᵥ v) (Fin.last t) = B (Fin.last t) (Fin.last t) - s ⬝ᵥ s := by
    have hself : ∑ k, B (Fin.last t) k.castSucc * x k = s ⬝ᵥ s := by
      calc ∑ k, B (Fin.last t) k.castSucc * x k
        _ = (L *ᵥ s) ⬝ᵥ x := by rw [hs]; rfl
        _ = s ⬝ᵥ s := by rw [dotProduct_comm, dotProduct_mulVec, ← mulVec_transpose, hx]
    rw [mulVec, dotProduct, Fin.sum_univ_castSucc]
    simp [v, hself, sub_eq_neg_add]
  have hform := hB.dotProduct_mulVec_pos hv
  rw [dotProduct, Fin.sum_univ_castSucc] at hform
  simp only [habove, hlast, mul_zero, Finset.sum_const_zero, zero_add] at hform
  simpa [v] using hform

theorem factorFrom?_append (front : List (List (Exact ℝ))) (row : List (Exact ℝ))
    (done : List (TriangularRow (Exact ℝ))) :
    factorFrom? (front ++ [row]) done =
      (factorFrom? front done).bind fun rows => (factorRow? rows row []).map fun r => rows ++ [r] := by
  induction front generalizing done with
  | nil =>
    simp only [List.nil_append, factorFrom?, Option.bind_some]
    cases factorRow? done row [] <;> rfl
  | cons first front ih =>
    rw [List.cons_append, factorFrom?, factorFrom?]
    cases factorRow? done first [] with
    | none => rfl
    | some r => exact ih (done ++ [r])

/-- The entries of a new row left of the diagonal solve the system of the rows above. -/
theorem factorRow?_eq_solveLower {rows : List (TriangularRow (Exact ℝ))} {row : List (Exact ℝ)}
    (hlong : rows.length ≤ row.length) :
    factorRow? rows row [] =
      row[rows.length]?.bind (pivotRow? (solveLower rows (row.take rows.length))) := by
  have hzip : rows.zip row = rows.zip (row.take rows.length) := by
    rw [List.zip_eq_zip_take_min, Nat.min_eq_left hlong, List.take_length]
  rw [factorRow?_eq, hzip, solveLower_eq]

/-- If the rows above are found the next row of a positive definite matrix is found as well. -/
theorem exists_factorRow?_of_posDef {A : Matrix (Fin n) (Fin n) ℝ} (hA : A.PosDef) {t : ℕ} (ht : t < n)
    {rows : List (TriangularRow (Exact ℝ))} (hrows : IsFactor ((rowsOf A).take t) rows) :
    ∃ r, factorRow? rows (Point.ofVector (A ⟨t, ht⟩)) [] = some r := by
  let row : Point (Exact ℝ) := Point.ofVector (A ⟨t, ht⟩)
  let B := A.submatrix (Fin.castLE ht) (Fin.castLE ht)
  have hB : B.PosDef := hA.submatrix (Fin.castLE_injective ht)
  have hsize : ((rowsOf A).take t).length = t := by
    rw [List.length_take, length_rowsOf, Nat.min_eq_left ht.le]
  have hlength : rows.length = t := hrows.length.trans hsize
  have hblock : matrixOf t ((rowsOf A).take t) = B.submatrix Fin.castSucc Fin.castSucc :=
    matrixOf_take_rowsOf A ht.le
  have hsymm : (matrixOf t ((rowsOf A).take t)).IsSymm := by
    rw [hblock]
    exact (isHermitian_iff_isSymm.mp hB.isHermitian).submatrix _
  have hproduct := hrows.mul_transpose hsize hsymm
  have hfront : (row.take t).length = t := by
    rw [List.length_take, Point.length_ofVector, Nat.min_eq_left ht.le]
  have hentries : Point.vector t (row.take t) = fun i => B (Fin.last t) i.castSucc := by
    funext i
    refine Point.vector_apply ?_
    rw [List.getElem?_take_of_lt i.isLt]
    exact Point.getElem?_ofVector (A ⟨t, ht⟩) (Fin.castLE ht.le i)
  have hsolved := length_solveLower hrows.triangular (hfront.trans hlength.symm)
  have hpivot : (Point.dot (solveLower rows (row.take t)) (solveLower rows (row.take t))).value <
      A ⟨t, ht⟩ ⟨t, ht⟩ := by
    rw [Point.value_dot_eq (hsolved.trans hlength).le]
    exact dotProduct_self_lt_of_posDef hB (hproduct.trans hblock)
      ((mulVec_solveLower hrows.triangular hlength hfront).trans hentries)
      (mulVec_solveUpper hrows.triangular hlength (hsolved.trans hlength))
  have hdiagonal : row[t]? = some ⟨A ⟨t, ht⟩ ⟨t, ht⟩⟩ := Point.getElem?_ofVector (A ⟨t, ht⟩) ⟨t, ht⟩
  have hlong : rows.length ≤ row.length := by
    rw [hlength, Point.length_ofVector]
    exact ht.le
  rw [factorRow?_eq_solveLower hlong, hlength, hdiagonal]
  exact ⟨_, pivotRow?_of_pos hpivot⟩

/-- A positive definite matrix has a factor. -/
theorem exists_factor?_of_posDef {A : Matrix (Fin n) (Fin n) ℝ} (hA : A.PosDef) :
    ∃ rows, factor? (rowsOf A) = some rows := by
  have hfront : ∀ t ≤ n, ∃ rows, factor? ((rowsOf A).take t) = some rows := by
    intro t ht
    -- Each leading block has a factor, and the next row is added to it.
    induction t with
    | zero => exact ⟨[], rfl⟩
    | succ t ih =>
      obtain ⟨rows, hrows⟩ := ih (Nat.le_of_succ_le ht)
      obtain ⟨r, hr⟩ := exists_factorRow?_of_posDef hA ht (isFactor_of_factor? hrows)
      have hnext : (rowsOf A).take (t + 1) = (rowsOf A).take t ++ [Point.ofVector (A ⟨t, ht⟩)] := by
        rw [List.take_add_one, getElem?_rowsOf A ⟨t, ht⟩]
        rfl
      rw [factor?] at hrows
      rw [factor?, hnext, factorFrom?_append, hrows, Option.bind_some, hr]
      exact ⟨_, rfl⟩
  obtain ⟨rows, hrows⟩ := hfront n le_rfl
  rw [List.take_of_length_le (length_rowsOf A).le] at hrows
  exact ⟨rows, hrows⟩

/-- **Factors without rounding.** A symmetric matrix has a factor exactly if it is positive definite. The
    factor is lower triangular with a positive diagonal, and its product with its transpose is the matrix. The
    two substitutions, one after the other, find the solution of the system with the matrix, and there is no
    other. A row is divided by diagonal entries of the rows above it, and the substitutions divide by those of
    all rows: none of them is zero, and neither are those of the rows above a row that cannot be found. -/
theorem factor?_solves {A : Matrix (Fin n) (Fin n) ℝ} (hA : A.IsSymm) :
    ((∃ rows, factor? (rowsOf A) = some rows) ↔ A.PosDef) ∧
    (∀ (m : ℕ) (above : List (TriangularRow (Exact ℝ))), factor? ((rowsOf A).take m) = some above →
      ∀ r ∈ above, 0 < r.diagonal.value) ∧
    ∀ rows, factor? (rowsOf A) = some rows →
      rows.length = n ∧ (lowerMatrix n rows).IsLowerTriangular ∧ (∀ i, 0 < lowerMatrix n rows i i) ∧
      lowerMatrix n rows * (lowerMatrix n rows)ᵀ = A ∧
      ∀ b : Fin n → ℝ, ∃ x : Fin n → ℝ,
        solveUpper rows (solveLower rows (Point.ofVector b)) = Point.ofVector x ∧
          ∀ y, A *ᵥ y = b ↔ y = x := by
  have hsize := length_rowsOf A
  have hproduct : ∀ rows, factor? (rowsOf A) = some rows →
      lowerMatrix n rows * (lowerMatrix n rows)ᵀ = A := by
    intro rows hrows
    have h := (isFactor_of_factor? hrows).mul_transpose hsize
    rw [matrixOf_rowsOf] at h
    exact h hA
  have hposDef : ∀ rows, factor? (rowsOf A) = some rows → A.PosDef := by
    intro rows hrows
    have hfactor := isFactor_of_factor? hrows
    have h := posDef_lowerMatrix_mul_transpose hfactor.triangular (hfactor.length.trans hsize)
    rwa [hproduct rows hrows] at h
  refine ⟨⟨fun ⟨rows, hrows⟩ => hposDef rows hrows, exists_factor?_of_posDef⟩, ?_, ?_⟩
  · exact fun m above habove => (isFactor_of_factor? habove).triangular.diagonal_pos
  · intro rows hrows
    have hfactor := isFactor_of_factor? hrows
    have hlength := hfactor.length.trans hsize
    refine ⟨hlength, isLowerTriangular_lowerMatrix hfactor.triangular hlength,
      lowerMatrix_diagonal_pos hfactor.triangular hlength, hproduct rows hrows, ?_⟩
    intro b
    have hb := Point.length_ofVector (K := ℝ) b
    have hlower := length_solveLower hfactor.triangular (hb.trans hlength.symm)
    have hupper := (length_solveUpper hfactor.triangular hlower).trans hlength
    have hsystem := mulVec_solveUpper_solveLower hfactor.triangular hlength hb
    rw [hproduct rows hrows, Point.vector_ofVector] at hsystem
    refine ⟨_, (Point.ofVector_vector hupper).symm, ?_⟩
    intro y
    have hinjective := mulVec_injective_of_isUnit (hposDef rows hrows).isUnit
    exact ⟨fun hy => hinjective (hy.trans hsystem.symm), fun hy => hy ▸ hsystem⟩

/-- A matrix of two rows that is positive definite. -/
def pairMatrix : Matrix (Fin 2) (Fin 2) ℝ := !![2, 1; 1, 2]

/-- A symmetric matrix with a positive diagonal that is not positive definite. -/
def crossedMatrix : Matrix (Fin 2) (Fin 2) ℝ := !![1, 2; 2, 1]

/-- A system that is solved with a factor, and a matrix that has none. -/
theorem pairMatrix_factor?_solves :
    pairMatrix.IsSymm ∧
    (∃ rows, factor? (rowsOf pairMatrix) = some rows ∧ (∀ r ∈ rows, 0 < r.diagonal.value) ∧
      lowerMatrix 2 rows * (lowerMatrix 2 rows)ᵀ = pairMatrix ∧
      solveUpper rows (solveLower rows (Point.ofVector ![3, 3])) = Point.ofVector ![1, 1]) ∧
    crossedMatrix.IsSymm ∧ ¬ ∃ rows, factor? (rowsOf crossedMatrix) = some rows := by
  have hpair : pairMatrix.IsSymm := by
    ext i k
    fin_cases i <;> fin_cases k <;> rfl
  have hcrossed : crossedMatrix.IsSymm := by
    ext i k
    fin_cases i <;> fin_cases k <;> rfl
  have hexists : ∃ rows, factor? (rowsOf pairMatrix) = some rows := by
    have hrows : rowsOf pairMatrix = [[⟨2⟩, ⟨1⟩], [⟨1⟩, ⟨2⟩]] := by
      simp [rowsOf, Point.ofVector, pairMatrix, List.ofFn_succ]
    rw [hrows]
    exact exists_factor?_two (by norm_num) (by norm_num)
  obtain ⟨-, hdiagonal, hsolves⟩ := factor?_solves hpair
  obtain ⟨rows, hrows⟩ := hexists
  obtain ⟨-, -, -, hproduct, hsystem⟩ := hsolves rows hrows
  obtain ⟨x, hx, hunique⟩ := hsystem ![3, 3]
  refine ⟨hpair, ⟨rows, hrows, ?_, hproduct, ?_⟩, hcrossed, ?_⟩
  · refine hdiagonal 2 rows ?_
    rwa [List.take_of_length_le (length_rowsOf pairMatrix).le]
  · have hsum : pairMatrix *ᵥ ![1, 1] = ![3, 3] := by
      ext i
      fin_cases i <;> norm_num [pairMatrix, mulVec, dotProduct]
    rw [hx, ← (hunique _).mp hsum]
  · rw [(factor?_solves hcrossed).1]
    intro hposDef
    have hform := hposDef.dotProduct_mulVec_pos (x := ![1, -1]) (by simp)
    norm_num [crossedMatrix, mulVec, dotProduct] at hform

end DelayTuning
