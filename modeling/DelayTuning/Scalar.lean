/-!
# Scalars

The arithmetic that a numerical algorithm of this library needs, as a class. Every algorithm that
sums, averages, factors or compares is written once over a scalar type. At doubles it is what the
program runs; at a field of exact numbers it is the algorithm of the textbook, so a statement about
exact arithmetic and a statement about doubles speak of the same definition.

## Main definitions

- `Scalar`: field operations, comparisons, literals and a test for finiteness
- `RealScalar`: a scalar with a square root and an exponential
- `Scalar.sum`: the sum of a list, from left to right
- `Scalar.maxNum`, `Scalar.minNum`: maximum and minimum that prefer a number to a NaN

## Design notes

The order of operations is part of each definition, since sums of doubles are not associative. A
sum starts at negative zero, which is neutral for doubles of either sign, so the sum of nothing is
negative zero. The comparison `==` is that of the numbers: a NaN is not equal to itself, and the two
zeros are equal.
-/

namespace DelayTuning

/-- The operations on numbers that the algorithms of this library are written with. -/
class Scalar (α : Type) extends Add α, Sub α, Mul α, Div α, Neg α, LT α, LE α, BEq α, NatCast α,
    OfScientific α where
  /-- The strict order can be decided. -/
  decLt : DecidableLT α
  /-- The order can be decided. -/
  decLe : DecidableLE α
  /-- Whether a number is neither infinite nor a NaN. -/
  isFinite : α → Bool

/-- A scalar with the two transcendental operations of a Gaussian process. -/
class RealScalar (α : Type) extends Scalar α where
  sqrt : α → α
  exp : α → α

instance (priority := low) instDecidableLTOfScalar {α : Type} [Scalar α] : DecidableLT α :=
  Scalar.decLt

instance (priority := low) instDecidableLEOfScalar {α : Type} [Scalar α] : DecidableLE α :=
  Scalar.decLe

/-- Doubles, with the arithmetic of the machine. -/
instance instScalarFloat : Scalar Float where
  natCast := Float.ofNat
  decLt := inferInstance
  decLe := inferInstance
  isFinite := Float.isFinite

/-- Doubles, with the machine's square root and exponential. -/
instance instRealScalarFloat : RealScalar Float where
  sqrt := Float.sqrt
  exp := Float.exp

namespace Scalar

variable {α : Type} [Scalar α]

/-- The sum of a list, added from left to right and starting at negative zero. -/
@[specialize]
def sum (xs : List α) : α :=
  xs.foldl (fun total x => total + x) (-0.0)

/-- The larger of two numbers. If one of them is a NaN the answer is the other one, and of two equal
    numbers it is the second, so that of zeros with different signs it is the later one. -/
@[specialize]
def maxNum (a b : α) : α :=
  if b == b then (if b < a then a else b) else a

/-- The smaller of two numbers. If one of them is a NaN the answer is the other one, and of two equal
    numbers it is the second, so that of zeros with different signs it is the later one. -/
@[specialize]
def minNum (a b : α) : α :=
  if b == b then (if a < b then a else b) else a

/-- A number moved to the nearer end of `[lower, upper]` when it lies outside. A NaN lies outside of
    nothing and is kept. -/
@[specialize]
def clamp (lower upper x : α) : α :=
  if x < lower then lower else if upper < x then upper else x

end Scalar

end DelayTuning
