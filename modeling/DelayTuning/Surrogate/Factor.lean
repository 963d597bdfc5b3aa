import DelayTuning.Point

/-!
# Triangular factors

The Cholesky factor of a matrix and the solution of triangular systems. A lower triangular matrix is
kept as the list of its rows, each with the entries to the left of the diagonal and the diagonal entry.

## Main definitions

- `TriangularRow`: a row of a lower triangular matrix
- `factor?`: the lower triangular `L` with `L * Lᵀ` the given matrix
- `solveLower`: the solution of `L * x = b`
- `solveUpper`: the solution of `Lᵀ * x = b`
-/

namespace DelayTuning

/-- A row of a lower triangular matrix, up to the diagonal. -/
structure TriangularRow (α : Type) where
  left : List α
  diagonal : α
  deriving DecidableEq, Repr

variable {α : Type} [RealScalar α]

/-- A number less the products of the paired entries of two lists, taken off one after the other. -/
@[specialize]
def subtractProducts (x : α) (a b : List α) : α :=
  (List.zipWith (fun p q => p * q) a b).foldl (fun rest p => rest - p) x

/-- The row of the factor for a row of the matrix, given the rows above it and the entries that are
    already known. A pivot that is not a positive finite number has no square root to go on with. -/
@[specialize]
def factorRow? : List (TriangularRow α) → List α → List α → Option (TriangularRow α)
  | _, [], _ => none
  | [], x :: _, done =>
    let pivot := subtractProducts x done done
    if pivot ≤ 0.0 || !Scalar.isFinite pivot then none else some ⟨done, RealScalar.sqrt pivot⟩
  | row :: above, x :: rest, done =>
    factorRow? above rest (done ++ [subtractProducts x done row.left / row.diagonal])

@[specialize]
def factorFrom? : List (List α) → List (TriangularRow α) → Option (List (TriangularRow α))
  | [], done => some done
  | row :: rest, done =>
    match factorRow? done row [] with
    | some r => factorFrom? rest (done ++ [r])
    | none => none

/-- The lower triangular factor of a symmetric matrix; `none` if the matrix is not positive
    definite. Only the entries up to the diagonal are looked at. -/
@[specialize]
def factor? (matrix : List (List α)) : Option (List (TriangularRow α)) :=
  factorFrom? matrix []

/-- The solution of `L * x = b`, from the first unknown on. -/
@[specialize]
def solveLower (rows : List (TriangularRow α)) (b : List α) : List α :=
  (rows.zip b).foldl
    (fun x (row, c) => x ++ [(c - Point.dot row.left x) / row.diagonal]) []

/-- The solution of `Lᵀ * x = b` for the rows of `L` from row `i` on, from the last unknown on. -/
@[specialize]
def solveUpperFrom : Nat → List (TriangularRow α) → List α → List α
  | i, row :: rest, c :: b =>
    let x := solveUpperFrom (i + 1) rest b
    let column := rest.map fun r => r.left.getD i 0.0
    (c - Point.dot column x) / row.diagonal :: x
  | _, _, _ => []

/-- The solution of `Lᵀ * x = b`. -/
@[specialize]
def solveUpper (rows : List (TriangularRow α)) (b : List α) : List α :=
  solveUpperFrom 0 rows b

end DelayTuning
