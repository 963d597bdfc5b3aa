import DelayTuning.Proofs.Vector
import DelayTuning.Surrogate.Factor

/-!
# Factors and triangular systems of real numbers

Without rounding the rows of a factor make a lower triangular matrix with a positive diagonal whose product
with its transpose is the matrix that was factored, and the two substitutions solve the systems with this
triangular matrix and with its transpose. The factor itself comes from a substitution: the entries of a new
row left of the diagonal are what it finds for the rows above.

## Main definitions

- `TriangularRow.entries`, `lowerMatrix`: a row up to its diagonal, and the matrix with such rows
- `IsTriangularFrom`: rows of the right lengths with a positive diagonal
- `substitute`, `pivotRow?`: one step of a substitution, and the row that the last step ends
- `IsFactor`: rows whose products with each other are the entries of a matrix

## Main statements

- `mulVec_solveLower`, `mulVec_solveUpper`: the systems that the substitutions solve
- `factorRow?_eq`: a new row of the factor by substitution
- `isFactor_of_factor?`, `IsFactor.mul_transpose`: what the rows of a factor are
-/

open Matrix

namespace DelayTuning

/-! ### Triangular matrices -/

namespace TriangularRow

variable {α : Type}

/-- The entries of a row up to the diagonal. -/
def entries (r : TriangularRow α) : List α :=
  r.left ++ [r.diagonal]

variable (r : TriangularRow α) (default : α) {k : ℕ}

theorem length_entries : r.entries.length = r.left.length + 1 := by
  rw [entries, List.length_append, List.length_singleton]

theorem getD_entries_left (h : k < r.left.length) : r.entries.getD k default = r.left.getD k default :=
  List.getD_append _ _ _ _ h

theorem getD_entries_diagonal (h : r.left.length = k) : r.entries.getD k default = r.diagonal := by
  subst h
  simp [entries]

theorem getD_entries_right (h : r.left.length < k) : r.entries.getD k default = default :=
  List.getD_eq_default _ _ (r.length_entries.trans_le h)

end TriangularRow

/-- Rows of a lower triangular matrix, from row `i` on, with positive entries on the diagonal. -/
def IsTriangularFrom : ℕ → List (TriangularRow (Exact ℝ)) → Prop
  | _, [] => True
  | i, r :: rest => r.left.length = i ∧ 0 < r.diagonal.value ∧ IsTriangularFrom (i + 1) rest

/-- The lower triangular matrix with the given rows. -/
noncomputable def lowerMatrix (n : ℕ) (rows : List (TriangularRow (Exact ℝ))) :
    Matrix (Fin n) (Fin n) ℝ :=
  matrixOf n (rows.map TriangularRow.entries)

namespace IsTriangularFrom

variable {rows : List (TriangularRow (Exact ℝ))} {i t : ℕ} {r : TriangularRow (Exact ℝ)}

theorem length_left (h : IsTriangularFrom i rows) (hr : rows[t]? = some r) : r.left.length = i + t := by
  induction rows generalizing i t with
  | nil => cases hr
  | cons s rest ih =>
    obtain ⟨hs, -, hrest⟩ := h
    cases t with
    | zero =>
      obtain rfl := Option.some.inj hr
      exact hs
    | succ t => rw [ih hrest hr, Nat.add_right_comm, Nat.add_assoc]

theorem length_entries (h : IsTriangularFrom i rows) (hr : rows[t]? = some r) :
    r.entries.length = i + t + 1 := by
  rw [r.length_entries, h.length_left hr]

theorem append (h : IsTriangularFrom i rows) (hlength : r.left.length = i + rows.length)
    (hpos : 0 < r.diagonal.value) : IsTriangularFrom i (rows ++ [r]) := by
  induction rows generalizing i with
  | nil => exact ⟨hlength, hpos, trivial⟩
  | cons s rest ih =>
    obtain ⟨hs, hspos, hrest⟩ := h
    refine ⟨hs, hspos, ih hrest ?_⟩
    rw [hlength, List.length_cons]
    omega

end IsTriangularFrom

/-! ### Substitution -/

/-- One step of the substitution from the first unknown on. -/
noncomputable def substitute (x : List (Exact ℝ)) (equation : TriangularRow (Exact ℝ) × Exact ℝ) :
    List (Exact ℝ) :=
  x ++ [(equation.2 - Point.dot equation.1.left x) / equation.1.diagonal]

theorem solveLower_eq (rows : List (TriangularRow (Exact ℝ))) (b : List (Exact ℝ)) :
    solveLower rows b = (rows.zip b).foldl substitute [] := rfl

/-- The substitution keeps the unknowns that are known and adds one for each equation, which then holds. -/
theorem exists_append_foldl_substitute {rows : List (TriangularRow (Exact ℝ))} {x : List (Exact ℝ)}
    (h : IsTriangularFrom x.length rows) (b : List (Exact ℝ)) :
    ∃ tail, (rows.zip b).foldl substitute x = x ++ tail ∧ tail.length = min rows.length b.length ∧
      ∀ (t : ℕ) (r : TriangularRow (Exact ℝ)) (c : Exact ℝ), rows[t]? = some r → b[t]? = some c →
        (Point.dot r.entries (x ++ tail)).value = c.value := by
  induction rows generalizing x b with
  | nil => exact ⟨[], by simp, by simp, by simp⟩
  | cons r rest ih =>
    cases b with
    | nil => exact ⟨[], by simp, by simp, by simp⟩
    | cons c b =>
      obtain ⟨hlength, hpos, hrest⟩ := h
      -- The later equations are about the unknowns after this step, which come after those in `x`.
      have hlonger : (substitute x (r, c)).length = x.length + 1 := by simp [substitute]
      obtain ⟨tail, hfold, hcount, hequations⟩ := ih (hlonger ▸ hrest) b
      have hsplit : substitute x (r, c) ++ tail =
          x ++ (c - Point.dot r.left x) / r.diagonal :: tail := by simp [substitute]
      rw [hsplit] at hfold hequations
      refine ⟨(c - Point.dot r.left x) / r.diagonal :: tail, hfold, by simp [hcount], ?_⟩
      intro t s d hs hd
      cases t with
      | zero =>
        obtain rfl := Option.some.inj hs
        obtain rfl := Option.some.inj hd
        rw [TriangularRow.entries, Point.value_dot_append hlength, Point.value_dot_cons,
          Point.value_dot_nil_left, add_zero, Exact.value_div, Exact.value_sub, mul_div_cancel₀ _ hpos.ne',
          add_sub_cancel]
      | succ t => exact hequations t s d hs hd

section

variable {rows : List (TriangularRow (Exact ℝ))} {b : List (Exact ℝ)}

theorem length_solveLower (h : IsTriangularFrom 0 rows) (hlength : b.length = rows.length) :
    (solveLower rows b).length = rows.length := by
  obtain ⟨tail, hfold, hcount, -⟩ := exists_append_foldl_substitute (x := []) h b
  rw [solveLower_eq, hfold, List.nil_append, hcount, hlength, Nat.min_self]

theorem lowerMatrix_row {n : ℕ} {i : Fin n} {r : TriangularRow (Exact ℝ)} (hr : rows[(i : ℕ)]? = some r) :
    lowerMatrix n rows i = Point.vector n r.entries := by
  show Point.vector n ((rows.map TriangularRow.entries).getD i []) = _
  rw [List.getD_eq_getElem?_getD, List.getElem?_map, hr]
  rfl

/-- The product of a lower triangular matrix with a vector, row by row. -/
theorem lowerMatrix_mulVec_apply (h : IsTriangularFrom 0 rows) {n : ℕ} {i : Fin n}
    {r : TriangularRow (Exact ℝ)} (hr : rows[(i : ℕ)]? = some r) (x : Point (Exact ℝ)) :
    (lowerMatrix n rows *ᵥ x.vector n) i = (Point.dot r.entries x).value := by
  have hentries : r.entries.length ≤ n := by
    rw [h.length_entries hr]
    omega
  rw [mulVec, lowerMatrix_row hr, Point.value_dot_eq hentries]

/-- The substitution from the first unknown on solves the system with the lower triangular matrix. -/
theorem mulVec_solveLower {n : ℕ} (h : IsTriangularFrom 0 rows) (hrows : rows.length = n)
    (hb : b.length = n) : lowerMatrix n rows *ᵥ Point.vector n (solveLower rows b) = Point.vector n b := by
  obtain ⟨tail, hfold, -, hequations⟩ := exists_append_foldl_substitute (x := []) h b
  funext i
  obtain ⟨r, hr⟩ := exists_getElem? hrows i
  obtain ⟨c, hc⟩ := exists_getElem? hb i
  rw [lowerMatrix_mulVec_apply h hr, Point.vector_apply hc, solveLower_eq, hfold]
  exact hequations i r c hr hc

/-- The substitution from the last unknown on, column by column. -/
theorem solveUpperFrom_gives {i : ℕ} (h : IsTriangularFrom i rows) (hlength : b.length = rows.length) :
    (solveUpperFrom i rows b).length = rows.length ∧
      ∀ t c, b[t]? = some c →
        (Point.dot (rows.map fun r => r.entries.getD (i + t) 0.0) (solveUpperFrom i rows b)).value =
          c.value := by
  induction rows generalizing i b with
  | nil =>
    obtain rfl := List.length_eq_zero_iff.mp hlength
    exact ⟨rfl, by simp⟩
  | cons r rest ih =>
    obtain ⟨c, b, rfl⟩ := List.exists_cons_of_length_eq_add_one hlength
    obtain ⟨hleft, hpos, hrest⟩ := h
    obtain ⟨hcount, hequations⟩ := ih hrest (Nat.succ_injective hlength)
    refine ⟨by simp [solveUpperFrom, hcount], ?_⟩
    intro t d hd
    rw [solveUpperFrom, List.map_cons, Point.value_dot_cons]
    cases t with
    | zero =>
      obtain rfl := Option.some.inj hd
      have hcolumn : (rest.map fun s => s.entries.getD i 0.0) = rest.map fun s => s.left.getD i 0.0 := by
        refine List.map_congr_left ?_
        intro s hs
        obtain ⟨k, hk⟩ := List.mem_iff_getElem?.mp hs
        refine s.getD_entries_left 0.0 ?_
        rw [hrest.length_left hk]
        omega
      rw [Nat.add_zero, r.getD_entries_diagonal 0.0 hleft, hcolumn, Exact.value_div, Exact.value_sub,
        mul_div_cancel₀ _ hpos.ne', sub_add_cancel]
    | succ t =>
      have hbeyond : r.entries.getD (i + (t + 1)) 0.0 = (0.0 : Exact ℝ) := by
        refine r.getD_entries_right 0.0 ?_
        omega
      rw [hbeyond, Exact.value_zero, zero_mul, zero_add, ← hequations t d hd, Nat.add_right_comm,
        Nat.add_assoc]

/-- The substitution from the last unknown on solves the system with the transposed matrix. -/
theorem mulVec_solveUpper {n : ℕ} (h : IsTriangularFrom 0 rows) (hrows : rows.length = n)
    (hb : b.length = n) :
    (lowerMatrix n rows)ᵀ *ᵥ Point.vector n (solveUpper rows b) = Point.vector n b := by
  obtain ⟨-, hequations⟩ := solveUpperFrom_gives h (hb.trans hrows.symm)
  funext i
  obtain ⟨c, hc⟩ := exists_getElem? hb i
  have hcolumn : (fun k => lowerMatrix n rows k i) =
      Point.vector n (rows.map fun r => r.entries.getD (i : ℕ) 0.0) := by
    funext k
    obtain ⟨r, hr⟩ := exists_getElem? hrows k
    have hentry : (rows.map fun r => r.entries.getD (i : ℕ) 0.0)[(k : ℕ)]? =
        some (r.entries.getD (i : ℕ) 0.0) := by
      rw [List.getElem?_map, hr]
      rfl
    rw [lowerMatrix_row hr, Point.vector_apply hentry, Point.value_getD]
    rfl
  have hequation := hequations i c hc
  rw [Nat.zero_add, Point.value_dot_eq (n := n) (by simp [hrows])] at hequation
  rw [Point.vector_apply hc, ← hequation, ← hcolumn]
  rfl

theorem length_solveUpper (h : IsTriangularFrom 0 rows) (hlength : b.length = rows.length) :
    (solveUpper rows b).length = rows.length :=
  (solveUpperFrom_gives h hlength).1

/-- The two substitutions together solve the system with the product of the two matrices. -/
theorem mulVec_solveUpper_solveLower {n : ℕ} (h : IsTriangularFrom 0 rows) (hrows : rows.length = n)
    (hb : b.length = n) :
    (lowerMatrix n rows * (lowerMatrix n rows)ᵀ) *ᵥ Point.vector n (solveUpper rows (solveLower rows b)) =
      Point.vector n b := by
  have hlower : (solveLower rows b).length = n :=
    (length_solveLower h (hb.trans hrows.symm)).trans hrows
  rw [← mulVec_mulVec, mulVec_solveUpper h hrows hlower, mulVec_solveLower h hrows hb]

end

/-! ### The factor -/

/-- The row with the given entries left of the diagonal, if what they leave of the diagonal entry `c` of the
    matrix is positive. -/
noncomputable def pivotRow? (left : List (Exact ℝ)) (c : Exact ℝ) : Option (TriangularRow (Exact ℝ)) :=
  if 0 < (c - Point.dot left left).value then some ⟨left, RealScalar.sqrt (c - Point.dot left left)⟩
  else none

theorem subtractProducts_eq (c : Exact ℝ) (x y : Point (Exact ℝ)) :
    subtractProducts c x y = c - Point.dot x y := by
  have hfold : ∀ (products : List (Exact ℝ)) (c : Exact ℝ),
      (products.foldl (fun rest p => rest - p) c).value = c.value - (products.map Exact.value).sum := by
    intro products
    induction products with
    | nil => simp
    | cons p rest ih =>
      intro c
      rw [List.foldl_cons, ih, Exact.value_sub, List.map_cons, List.sum_cons, sub_sub]
  ext
  rw [subtractProducts, hfold, Exact.value_sub, Point.dot, Exact.value_sum]

/-- The entries of a new row left of the diagonal come from the substitution for the rows above it. -/
theorem factorRow?_eq (above : List (TriangularRow (Exact ℝ))) (row done : List (Exact ℝ)) :
    factorRow? above row done =
      row[above.length]?.bind (pivotRow? ((above.zip row).foldl substitute done)) := by
  induction row generalizing above done with
  | nil => simp [factorRow?]
  | cons c row ih =>
    cases above with
    | nil =>
      rw [factorRow?, subtractProducts_eq]
      simp [pivotRow?, Exact.le_iff, ← not_lt, ite_not]
    | cons r above =>
      rw [factorRow?, ih, subtractProducts_eq, Point.dot_comm]
      rfl

/-- What the pivot row is when there is one. -/
theorem pivotRow?_gives {left : List (Exact ℝ)} {c : Exact ℝ} {r : TriangularRow (Exact ℝ)}
    (h : pivotRow? left c = some r) :
    r.left = left ∧ 0 < r.diagonal.value ∧ Point.dot r.entries r.entries = c := by
  rw [pivotRow?] at h
  split at h
  · next hpos =>
    obtain rfl := Option.some.inj h
    refine ⟨rfl, Real.sqrt_pos.mpr hpos, ?_⟩
    ext
    rw [TriangularRow.entries, Point.value_dot_append rfl, Point.value_dot_cons, Point.value_dot_nil_left,
      add_zero]
    show _ + Real.sqrt _ * Real.sqrt _ = _
    rw [Real.mul_self_sqrt hpos.le, Exact.value_sub, add_sub_cancel]
  · cases h

/-- The product of a row with a shorter one does not depend on its diagonal entry. -/
theorem dot_entries_of_length_le {r s : TriangularRow (Exact ℝ)} (h : s.entries.length ≤ r.left.length) :
    Point.dot r.entries s.entries = Point.dot s.entries r.left := by
  ext
  rw [Point.dot_comm, TriangularRow.entries.eq_def r, Point.value_dot_append_right h]

/-- Rows of a lower triangular matrix whose products with each other are the entries of a matrix up to its
    diagonal. -/
structure IsFactor (matrix : List (List (Exact ℝ))) (rows : List (TriangularRow (Exact ℝ))) : Prop where
  length : rows.length = matrix.length
  triangular : IsTriangularFrom 0 rows
  product : ∀ (i k : ℕ) (row : List (Exact ℝ)) (r s : TriangularRow (Exact ℝ)),
    matrix[i]? = some row → rows[i]? = some r → rows[k]? = some s → k ≤ i →
      row[k]? = some (Point.dot r.entries s.entries)

namespace IsFactor

variable {matrix : List (List (Exact ℝ))} {rows : List (TriangularRow (Exact ℝ))}

theorem append {row : List (Exact ℝ)} {r : TriangularRow (Exact ℝ)} (h : IsFactor matrix rows)
    (hr : factorRow? rows row [] = some r) : IsFactor (matrix ++ [row]) (rows ++ [r]) := by
  obtain ⟨tail, hfold, hcount, hequations⟩ := exists_append_foldl_substitute (x := []) h.triangular row
  rw [factorRow?_eq, hfold, List.nil_append] at hr
  rw [List.nil_append] at hequations
  obtain ⟨c, hc, hpivot⟩ := Option.bind_eq_some_iff.mp hr
  obtain ⟨hleft, hpos, hself⟩ := pivotRow?_gives hpivot
  have hlong : rows.length < row.length := (List.getElem?_eq_some_iff.mp hc).1
  have hlength : r.left.length = rows.length := by
    rw [hleft, hcount, Nat.min_eq_left hlong.le]
  refine ⟨by simp [h.length], h.triangular.append (by rw [hlength, Nat.zero_add]) hpos, ?_⟩
  intro i k row' r' s hrow hr' hs hki
  by_cases hi : i < rows.length
  · rw [List.getElem?_append_left (h.length ▸ hi)] at hrow
    rw [List.getElem?_append_left hi] at hr'
    rw [List.getElem?_append_left (hki.trans_lt hi)] at hs
    exact h.product i k row' r' s hrow hr' hs hki
  · -- The new row: its product with a row above was an equation of the substitution, its product with
    -- itself is what the pivot was chosen for.
    have hilast : i = rows.length := by
      have hbound := (List.getElem?_eq_some_iff.mp hr').1
      rw [List.length_append, List.length_singleton] at hbound
      omega
    subst hilast
    obtain rfl : r = r' := by simpa using hr'
    obtain rfl : row = row' := by simpa [h.length] using hrow
    by_cases hk : k < rows.length
    · rw [List.getElem?_append_left hk] at hs
      have hd := List.getElem?_eq_getElem (hk.trans hlong)
      have hshort : s.entries.length ≤ r.left.length := by
        rw [h.triangular.length_entries hs, hlength]
        omega
      have hequation := hequations k s _ hs hd
      rw [hd, dot_entries_of_length_le hshort, hleft, Exact.ext hequation]
    · obtain rfl : k = rows.length := by omega
      obtain rfl : r = s := by simpa using hs
      rw [hc, hself]

end IsFactor

theorem isFactor_of_factorFrom? {rest front : List (List (Exact ℝ))}
    {done rows : List (TriangularRow (Exact ℝ))} (hdone : IsFactor front done)
    (h : factorFrom? rest done = some rows) : IsFactor (front ++ rest) rows := by
  induction rest generalizing front done with
  | nil =>
    obtain rfl := Option.some.inj h
    rwa [List.append_nil]
  | cons row rest ih =>
    rw [factorFrom?] at h
    split at h
    · next r hr =>
      rw [List.append_cons]
      exact ih (hdone.append hr) h
    · cases h

theorem isFactor_of_factor? {matrix : List (List (Exact ℝ))} {rows : List (TriangularRow (Exact ℝ))}
    (h : factor? matrix = some rows) : IsFactor matrix rows := by
  have hempty : IsFactor [] [] := ⟨rfl, trivial, by simp⟩
  exact isFactor_of_factorFrom? hempty h

theorem pivotRow?_of_pos {left : List (Exact ℝ)} {c : Exact ℝ} (h : (Point.dot left left).value < c.value) :
    pivotRow? left c = some ⟨left, RealScalar.sqrt (c - Point.dot left left)⟩ :=
  if_pos (sub_pos.mpr h)

/-- A matrix of two rows has a factor if its first entry and its determinant are positive. -/
theorem exists_factor?_two {a b c d : Exact ℝ} (ha : 0 < a.value) (h : c.value ^ 2 < a.value * d.value) :
    ∃ rows, factor? [[a, b], [c, d]] = some rows := by
  have hfirst : (Point.dot [] [] : Exact ℝ).value < a.value := by rwa [Point.value_dot_nil_left]
  have hroot : (RealScalar.sqrt (a - Point.dot [] [])).value = √a.value := by
    show √(a.value - (Point.dot [] [] : Exact ℝ).value) = √a.value
    rw [Point.value_dot_nil_left, sub_zero]
  set r : TriangularRow (Exact ℝ) := ⟨[], RealScalar.sqrt (a - Point.dot [] [])⟩
  have hsecond : (Point.dot (substitute [] (r, c)) (substitute [] (r, c))).value < d.value := by
    rw [substitute, List.nil_append, Point.value_dot_cons, Point.value_dot_nil_left, add_zero, Exact.value_div,
      Exact.value_sub, Point.value_dot_nil_left, sub_zero, hroot, div_mul_div_comm, Real.mul_self_sqrt ha.le,
      div_lt_iff₀ ha, ← pow_two, mul_comm]
    exact h
  have hrow : factorRow? [] [a, b] [] = some r :=
    (factorRow?_eq [] [a, b] []).trans (pivotRow?_of_pos hfirst)
  have hnext := (factorRow?_eq [r] [c, d] []).trans (pivotRow?_of_pos hsecond)
  simp [factor?, factorFrom?, hrow, hnext]

/-- The product of the factor with its transpose is the matrix that was factored. -/
theorem IsFactor.mul_transpose {matrix : List (List (Exact ℝ))} {rows : List (TriangularRow (Exact ℝ))}
    {n : ℕ} (h : IsFactor matrix rows) (hlength : matrix.length = n) (hsymm : (matrixOf n matrix).IsSymm) :
    lowerMatrix n rows * (lowerMatrix n rows)ᵀ = matrixOf n matrix := by
  have hentry : ∀ i k : Fin n, k ≤ i →
      (lowerMatrix n rows * (lowerMatrix n rows)ᵀ) i k = matrixOf n matrix i k := by
    intro i k hki
    obtain ⟨row, hrow⟩ := exists_getElem? hlength i
    obtain ⟨r, hr⟩ := exists_getElem? (h.length.trans hlength) i
    obtain ⟨s, hs⟩ := exists_getElem? (h.length.trans hlength) k
    have hshort : r.entries.length ≤ n := by
      rw [h.triangular.length_entries hr]
      omega
    rw [matrixOf_apply hrow (h.product i k row r s hrow hr hs hki), Point.value_dot_eq hshort,
      ← lowerMatrix_row hr, ← lowerMatrix_row hs]
    rfl
  ext i k
  rcases le_total k i with hki | hik
  · exact hentry i k hki
  · rw [← (isSymm_mul_transpose_self (lowerMatrix n rows)).apply, ← hsymm.apply, hentry k i hik]

end DelayTuning
