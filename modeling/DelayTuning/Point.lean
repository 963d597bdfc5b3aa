import DelayTuning.Scalar

/-!
# Points

Points of a coordinate space are lists of scalars. Operations on two points pair the coordinates in
order and stop at the shorter one.

## Main definitions

- `Point.dot`: the inner product
- `Point.squaredDistance`: the sum of the squared differences
-/

namespace DelayTuning

/-- A point, one scalar for each coordinate. -/
abbrev Point (α : Type) := List α

namespace Point

variable {α : Type} [Scalar α]

/-- The inner product, summed from the first coordinate on. -/
@[specialize]
def dot (a b : Point α) : α :=
  Scalar.sum (List.zipWith (fun x y => x * y) a b)

/-- The square of the distance, summed from the first coordinate on. -/
@[specialize]
def squaredDistance (a b : Point α) : α :=
  Scalar.sum (List.zipWith (fun x y => (x - y) * (x - y)) a b)

end Point

end DelayTuning
