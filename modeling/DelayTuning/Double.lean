import DelayTuning.Decimal.Binary64
import DelayTuning.Scalar

/-!
# Doubles whose NaN has a sign

A NaN counts in no comparison, but it has a sign, and the total order of doubles looks at it: a negative
NaN stands below all numbers and a positive one above them. Whoever ranks by computed scores has to know
how the sign comes about, so a coordinate and a score are doubles of this kind.

## Main definitions

- `Double`: a number, or a NaN with its sign
- `Double.ofFloat`, `Double.toFloat`: between these doubles and those of the machine
- `Double.unary`, `Double.binary`: operations on numbers, extended to NaNs
- `Double.totalLe`: the total order

## Main statements

- `Double.totalLe_total`, `Double.totalLe_trans`: the total order is total and transitive

## Design notes

A NaN that is given is positive. Where numbers have no result, as in a quotient of two infinities, the
result is a negative NaN. An operation that meets a NaN hands it on with its sign, the first one if both
operands are NaNs, so for NaNs addition and multiplication are not commutative: the order of the operands
is part of every formula. Only a change of sign changes the sign of a NaN.
-/

namespace DelayTuning

/-- A double: a NaN with a sign, or a number. -/
inductive Double where
  | nan (negative : Bool)
  | number (x : Float) (isNumber : x.isNaN = false)
  deriving DecidableEq, Repr

namespace Double

/-- A given double; a NaN is positive. -/
def ofFloat (x : Float) : Double :=
  if h : x.isNaN = false then .number x h else .nan false

/-- The result of an operation on numbers; if there is none it is a negative NaN. -/
@[inline]
def ofResult (x : Float) : Double :=
  if h : x.isNaN = false then .number x h else .nan true

/-- The double without the sign of a NaN. -/
def toFloat : Double → Float
  | .nan _ => 0.0 / 0.0
  | .number x _ => x

/-- An operation on numbers, where a NaN is its own result. -/
@[inline]
def unary (f : Float → Float) : Double → Double
  | .nan negative => .nan negative
  | .number x _ => ofResult (f x)

/-- An operation on two numbers, where the first NaN among the operands is the result. -/
@[inline]
def binary (f : Float → Float → Float) : Double → Double → Double
  | .nan negative, _ => .nan negative
  | .number _ _, .nan negative => .nan negative
  | .number x _, .number y _ => ofResult (f x y)

/-- The double with the opposite sign, also of a NaN. -/
def opposite : Double → Double
  | .nan negative => .nan (!negative)
  | .number x _ => ofResult (-x)

instance instAdd : Add Double := ⟨binary (· + ·)⟩

instance instSub : Sub Double := ⟨binary (· - ·)⟩

instance instMul : Mul Double := ⟨binary (· * ·)⟩

instance instDiv : Div Double := ⟨binary (· / ·)⟩

instance instNeg : Neg Double := ⟨opposite⟩

/-- Numbers compare as the machine compares them; a NaN is not below anything. -/
instance instLT : LT Double := ⟨fun x y => x.toFloat < y.toFloat⟩

/-- Numbers compare as the machine compares them; a NaN is not below anything. -/
instance instLE : LE Double := ⟨fun x y => x.toFloat ≤ y.toFloat⟩

/-- Equality of numbers, for which both zeros are equal; a NaN is not equal to anything. -/
instance instBEq : BEq Double := ⟨fun x y => x.toFloat == y.toFloat⟩

instance instOfScientific : OfScientific Double where
  ofScientific mantissa negative exponent :=
    ofFloat (OfScientific.ofScientific mantissa negative exponent)

/-- Doubles, with the arithmetic of the machine on numbers. -/
instance instScalar : Scalar Double where
  natCast n := ofFloat (Float.ofNat n)
  decLt x y := inferInstanceAs (Decidable (x.toFloat < y.toFloat))
  decLe x y := inferInstanceAs (Decidable (x.toFloat ≤ y.toFloat))
  isFinite x := x.toFloat.isFinite

/-- Doubles, with the machine's square root and exponential. -/
instance instRealScalar : RealScalar Double where
  sqrt := unary Float.sqrt
  exp := unary Float.exp

/-- Whether a double comes no later than another one in the total order
    `-NaN < -∞ < … < -0.0 < 0.0 < … < ∞ < NaN`. -/
def totalLe : Double → Double → Bool
  | .nan true, _ => true
  | .nan false, .nan negative => !negative
  | .nan false, .number _ _ => false
  | .number _ _, .nan negative => !negative
  | .number x _, .number y _ => DelayTuning.totalLe x y

/-! ### Laws -/

/-- Of two doubles one comes no later than the other. -/
theorem totalLe_total (x y : Double) : (x.totalLe y || y.totalLe x) = true := by
  rcases x with ⟨_ | _⟩ | ⟨x, _⟩ <;> rcases y with ⟨_ | _⟩ | ⟨y, _⟩ <;>
    simp [totalLe, DelayTuning.totalLe, Int.le_total]

/-- The total order is transitive. -/
theorem totalLe_trans (x y z : Double) (hxy : x.totalLe y = true) (hyz : y.totalLe z = true) :
    x.totalLe z = true := by
  rcases x with ⟨_ | _⟩ | ⟨x, _⟩ <;> rcases y with ⟨_ | _⟩ | ⟨y, _⟩ <;>
    rcases z with ⟨_ | _⟩ | ⟨z, _⟩ <;> simp [totalLe, DelayTuning.totalLe] at hxy hyz ⊢
  exact Int.le_trans hxy hyz

end Double

end DelayTuning
