/-!
# Doubles as exact numbers

A double is a NaN, an infinity, or an integer times a power of two. Everything that turns a double
into text or into an integer starts from that exact number.

## Main definitions

- `Binary64`: the three kinds of double
- `Binary64.ofFloat`: the number that a double stands for
- `roundHalfAway`: rounding to an integral double, halves away from zero
- `roundToNat`: rounding to a natural number below `2 ^ 64`
- `totalOrderKey`: the position of a double in the total order of doubles
-/

namespace DelayTuning

/-- What a double stands for; a finite one is `± mantissa * 2 ^ exponent`. -/
inductive Binary64 where
  | nan
  | infinity (negative : Bool)
  | finite (negative : Bool) (mantissa : Nat) (exponent : Int)
  deriving DecidableEq, Repr

namespace Binary64

/-- The least exponent of a double, that of the subnormal ones. -/
def minExponent : Int := -1074

/-- The number behind the bits of a double. The mantissa of a normal double has 53 bits; a subnormal
    one has the least exponent and a shorter mantissa. -/
def ofBits (bits : Nat) : Binary64 :=
  let negative := bits / Nat.pow 2 63 % 2 == 1
  let field := bits / Nat.pow 2 52 % Nat.pow 2 11
  let fraction := bits % Nat.pow 2 52
  if field = 2047 then
    if fraction = 0 then .infinity negative else .nan
  else if field = 0 then
    .finite negative fraction minExponent
  else
    .finite negative (Nat.pow 2 52 + fraction) (minExponent + (field - 1 : Nat))

def ofFloat (x : Float) : Binary64 :=
  ofBits x.toBits.toNat

end Binary64

/-- A non-negative `mantissa * 2 ^ exponent` rounded to an integer, halves upward. -/
def roundHalfUp (mantissa : Nat) (exponent : Int) : Nat :=
  if 0 ≤ exponent then mantissa * Nat.pow 2 exponent.toNat
  else (2 * mantissa + Nat.pow 2 (-exponent).toNat) / Nat.pow 2 ((-exponent).toNat + 1)

/-- A double rounded to an integral one, halves away from zero. The sign is kept, also that of a
    result of zero; infinities and NaN are kept. -/
def roundHalfAway (x : Float) : Float :=
  match Binary64.ofFloat x with
  | .finite negative mantissa exponent =>
    if 0 ≤ exponent then x
    else
      let rounded := Float.ofNat (roundHalfUp mantissa exponent)
      if negative then -rounded else rounded
  | _ => x

/-- The largest count, `2 ^ 64 - 1`. -/
def maxCount : Nat := UInt64.size - 1

/-- A double rounded to a count: halves away from zero, negative numbers and NaN to zero, and numbers
    above the largest count to that count. -/
def roundToNat (x : Float) : Nat :=
  match Binary64.ofFloat x with
  | .nan => 0
  | .infinity negative => if negative then 0 else maxCount
  | .finite negative mantissa exponent =>
    if negative then 0 else min (roundHalfUp mantissa exponent) maxCount

/-- The place of a double in the total order `-∞ < … < -0.0 < 0.0 < … < ∞ < NaN`. -/
def totalOrderKey (x : Float) : Int :=
  let bits := x.toBits.toNat
  if bits < Nat.pow 2 63 then (bits : Int) else -((bits : Int) - Nat.pow 2 63) - 1

/-- Whether a double comes no later than another one in the total order. -/
def totalLe (x y : Float) : Bool :=
  totalOrderKey x ≤ totalOrderKey y

end DelayTuning
