import DelayTuning.Space.Basic
import DelayTuning.Random.Generator

/-!
# Drawing points of a space

Random points of a space: one uniform point, or a Latin hypercube of points in which every coordinate
meets each of `n` equal strata once.

## Main definitions

- `Space.uniform`: a point with independent uniform coordinates
- `Space.latinHypercube`: `n` points, stratified in every coordinate

## Design notes

A parameter whose width is not finite has no uniform draw. `Space.uniform` then answers `none` in the
middle of the point: the coordinates before it have been drawn, so the generator has moved on.
-/

namespace DelayTuning

/-- The coordinates of a uniform point, one parameter after the other; `none` from the first parameter
    of infinite width on. A parameter without width takes its bound and draws nothing. -/
@[specialize]
def uniformCoordinates {α : Type} [Scalar α] :
    List (Parameter α) → Generator → Option (Point α) × Generator
  | [], g => (some [], g)
  | p :: rest, g =>
    if p.width == 0.0 then
      let (tail, g) := uniformCoordinates rest g
      (tail.map (p.lower :: ·), g)
    else if Scalar.isFinite p.width then
      let (c, g) := g.between p.lower p.upper
      let (tail, g) := uniformCoordinates rest g
      (tail.map (c :: ·), g)
    else (none, g)

/-- The coordinates of a parameter for points in the given strata out of `n`: a random place in the
    stratum, stretched to the bounds. -/
@[specialize]
def stratifiedCoordinates {α : Type} [Scalar α] (p : Parameter α) (n : Nat) :
    List Nat → Generator → List α × Generator
  | [], g => ([], g)
  | stratum :: rest, g =>
    let (offset, g) : α × Generator := g.unit
    let u := ((stratum : α) + offset) / (n : α)
    let (tail, g) := stratifiedCoordinates p n rest g
    ((p.lower + Scalar.minNum u 1.0 * p.width) :: tail, g)

/-- Points extended by one coordinate for each parameter. The order of the strata is shuffled anew for
    every parameter. -/
@[specialize]
def extendStratified {α : Type} [Scalar α] (n : Nat) :
    List (Parameter α) → List Nat → List (Point α) → Generator → List (Point α) × Generator
  | [], _, points, g => (points, g)
  | p :: rest, strata, points, g =>
    let (strata, g) := g.shuffle strata
    let (column, g) := stratifiedCoordinates p n strata g
    extendStratified n rest strata (List.zipWith (fun x c => x ++ [c]) points column) g

namespace Space

variable {α : Type} [Scalar α]

/-- A point with independent uniform coordinates; `none` if a parameter has infinite width. -/
@[specialize]
def uniform (s : Space α) (g : Generator) : Option (Point α) × Generator :=
  uniformCoordinates s.parameters g

/-- A Latin hypercube of `n` points. -/
@[specialize]
def latinHypercube (s : Space α) (n : Nat) (g : Generator) : List (Point α) × Generator :=
  extendStratified n s.parameters (List.range n) (List.replicate n []) g

end Space

end DelayTuning
