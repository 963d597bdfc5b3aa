import DelayTuning.Proofs.Exact

/-!
# Points as vectors

A point of exact numbers is read as a vector, and a list of points as the matrix with these rows. The inner
product of two points is that of their vectors.

## Main definitions

- `Point.vector`, `Point.ofVector`: the coordinates of a point as a vector, and back
- `matrixOf`: the matrix with the given rows

## Main statements

- `Point.value_dot_append`: the inner product of points put together from two parts
- `Point.value_dot_eq`: the inner product of points as that of vectors
- `two_mul_dotProduct_sub_le`: what an inner product says about the length of one of the vectors
-/

open Matrix

namespace DelayTuning

/-- In a list of `n` entries there is one for each index. -/
theorem exists_getElem? {β : Type} {xs : List β} {n : ℕ} (h : xs.length = n) (i : Fin n) :
    ∃ x, xs[(i : ℕ)]? = some x :=
  ⟨_, List.getElem?_eq_getElem (h.symm ▸ i.isLt)⟩

variable {K : Type} [Field K] [LinearOrder K]

/-- The first `n` coordinates of a point, with zeros after the last one. -/
def Point.vector (n : ℕ) (x : Point (Exact K)) : Fin n → K :=
  fun i => x.values.getD i 0

/-- The point with the given coordinates. -/
def Point.ofVector {n : ℕ} (v : Fin n → K) : Point (Exact K) :=
  List.ofFn fun i => ⟨v i⟩

/-- The square matrix with the given rows. -/
def matrixOf (n : ℕ) (rows : List (Point (Exact K))) : Matrix (Fin n) (Fin n) K :=
  Matrix.of fun i => (rows.getD i []).vector n

variable {n : ℕ} {x y : Point (Exact K)}

namespace Point

omit [LinearOrder K] in
theorem vector_apply {i : Fin n} {c : Exact K} (h : x[(i : ℕ)]? = some c) : x.vector n i = c.value := by
  obtain ⟨hi, rfl⟩ := List.getElem?_eq_some_iff.mp h
  exact getD_values hi 0

omit [LinearOrder K] in
@[simp]
theorem vector_nil : vector n ([] : Point (Exact K)) = 0 := rfl

omit [Field K] [LinearOrder K] in
@[simp]
theorem length_ofVector (v : Fin n → K) : (ofVector v).length = n := List.length_ofFn

omit [Field K] [LinearOrder K] in
@[simp]
theorem getElem?_ofVector (v : Fin n → K) (i : Fin n) : (ofVector v)[(i : ℕ)]? = some ⟨v i⟩ := by
  simp [ofVector]

omit [LinearOrder K] in
theorem vector_ofVector (v : Fin n → K) : (ofVector v).vector n = v :=
  funext fun i => vector_apply (getElem?_ofVector v i)

omit [LinearOrder K] in
theorem ofVector_vector (h : x.length = n) : ofVector (x.vector n) = x := by
  subst h
  refine List.ext_getElem (length_ofVector _) ?_
  intro j hj hx
  simp only [ofVector, List.getElem_ofFn]
  exact Exact.ext (getD_values hx 0)

end Point

omit [LinearOrder K] in
theorem matrixOf_apply {rows : List (Point (Exact K))} {i k : Fin n} {row : Point (Exact K)} {c : Exact K}
    (hrow : rows[(i : ℕ)]? = some row) (hc : row[(k : ℕ)]? = some c) : matrixOf n rows i k = c.value := by
  rw [matrixOf, of_apply, List.getD_eq_getElem?_getD, hrow]
  exact Point.vector_apply hc

namespace Point

/-! ### Inner products -/

variable [IsStrictOrderedRing K]

theorem value_getD (x : Point (Exact K)) (j : ℕ) : (x.getD j 0.0).value = x.values.getD j 0 := by
  rw [← Exact.value_zero, values, List.getD_map]

@[simp]
theorem value_dot_nil_left (y : Point (Exact K)) : (dot [] y).value = 0 :=
  Exact.value_sum []

theorem value_dot_cons (c d : Exact K) (x y : Point (Exact K)) :
    (dot (c :: x) (d :: y)).value = c.value * d.value + (dot x y).value := by
  rw [dot, dot, Exact.value_sum, Exact.value_sum, List.zipWith_cons_cons, List.map_cons,
    List.sum_cons, Exact.value_mul]

theorem dot_comm (x y : Point (Exact K)) : dot x y = dot y x := by
  induction x generalizing y with
  | nil => cases y <;> rfl
  | cons c x ih =>
    cases y with
    | nil => rfl
    | cons d y =>
      ext
      rw [value_dot_cons, value_dot_cons, ih, mul_comm]

/-- Points of one length come before what is appended to them. -/
theorem value_dot_append (h : x.length = y.length) (x' y' : Point (Exact K)) :
    (dot (x ++ x') (y ++ y')).value = (dot x y).value + (dot x' y').value := by
  rw [dot, List.zipWith_append h, Exact.value_sum, List.map_append, List.sum_append, ← Exact.value_sum,
    ← Exact.value_sum]
  rfl

/-- What comes after the end of the other point does not count. -/
theorem value_dot_append_right (h : x.length ≤ y.length) (y' : Point (Exact K)) :
    (dot x (y ++ y')).value = (dot x y).value := by
  induction x generalizing y with
  | nil => rw [value_dot_nil_left, value_dot_nil_left]
  | cons c x ih =>
    cases y with
    | nil => exact absurd h (by simp)
    | cons d y => rw [List.cons_append, value_dot_cons, value_dot_cons, ih (Nat.le_of_succ_le_succ h)]

/-- The inner product of two points is that of their vectors, if the vectors have room for one of them. -/
theorem value_dot_eq (h : x.length ≤ n) (y : Point (Exact K)) :
    (dot x y).value = x.vector n ⬝ᵥ y.vector n := by
  induction n generalizing x y with
  | zero =>
    rw [List.length_eq_zero_iff.mp (Nat.le_zero.mp h), value_dot_nil_left, vector_nil, zero_dotProduct]
  | succ n ih =>
    cases x with
    | nil => rw [value_dot_nil_left, vector_nil, zero_dotProduct]
    | cons c x =>
      cases y with
      | nil => rw [dot_comm, value_dot_nil_left, vector_nil, dotProduct_zero]
      | cons d y =>
        rw [value_dot_cons, ih (Nat.le_of_succ_le_succ h), dotProduct, dotProduct, Fin.sum_univ_succ]
        rfl

end Point

section

variable [IsStrictOrderedRing K] (v w : Fin n → K)

theorem dotProduct_self_nonneg : 0 ≤ v ⬝ᵥ v :=
  Finset.sum_nonneg fun i _ => mul_self_nonneg (v i)

/-- A vector is at least as long as another one and the angle between them require. -/
theorem two_mul_dotProduct_sub_le : 2 * (v ⬝ᵥ w) - v ⬝ᵥ v ≤ w ⬝ᵥ w := by
  have hdifference := dotProduct_self_nonneg (v - w)
  rw [sub_dotProduct, dotProduct_sub, dotProduct_sub, dotProduct_comm w v] at hdifference
  linarith

end

end DelayTuning
