import DelayTuning.Decimal.Binary64

/-!
# Shortest decimals

The decimal number with the fewest digits that reads back as a given double, and its two written
forms.

## Main definitions

- `Decimal`: a decimal number `digits * 10 ^ exponent`
- `Decimal.shortest`: the shortest decimal in the interval of numbers that round to a double
- `shortestText`: positional notation without a needless point, as in `2`, `0.5` and `-0`
- `exponentText`: always with a point or an exponent, as in `2.0`, `0.00001` and `1e+16`

## Design notes

A double `mantissa * 2 ^ exponent` owns the interval that reaches half-way to its two neighbours; the
ends belong to it iff the mantissa is even. Measured in quarters of the last binary place the
interval is `[4m - 2, 4m + 2]`, except that below a power of two the neighbour is nearer and the lower
end is `4m - 1`. For 1, 2, … digits the two decimals next to the double are tried, the nearer first;
seventeen digits always suffice.
-/

namespace DelayTuning

/-- The decimal number `digits * 10 ^ exponent`. -/
structure Decimal where
  digits : Nat
  exponent : Int
  deriving DecidableEq, Repr

namespace Decimal

/-- The number of decimal digits of a natural number, none for zero. -/
def digitCount (n : Nat) : Nat :=
  if n = 0 then 0 else (Nat.toDigits 10 n).length

/-- The exponent `k` with `10 ^ (k - 1) ≤ numerator / denominator < 10 ^ k`, for a positive number. -/
def leadingExponent (numerator denominator : Nat) : Int :=
  if denominator ≤ numerator then digitCount (numerator / denominator)
  else 1 - digitCount ((denominator - 1) / numerator)

/-- The interval of a double in quarters of its last binary place. -/
structure Interval where
  lower : Nat
  centre : Nat
  upper : Nat
  /-- Whether the ends belong to the interval. -/
  closed : Bool
  deriving DecidableEq, Repr

/-- The numbers that round to the double `mantissa * 2 ^ exponent`. -/
def Interval.ofDouble (mantissa : Nat) (exponent : Int) : Interval where
  lower :=
    if mantissa = Nat.pow 2 52 ∧ Binary64.minExponent < exponent then 4 * mantissa - 1
    else 4 * mantissa - 2
  centre := 4 * mantissa
  upper := 4 * mantissa + 2
  closed := mantissa % 2 == 0

/-- Whether the number `c / scale` lies in the interval. -/
def Interval.contains (i : Interval) (scale c : Nat) : Bool :=
  if i.closed then decide (i.lower * scale ≤ c) && decide (c ≤ i.upper * scale)
  else decide (i.lower * scale < c) && decide (c < i.upper * scale)

/-- The decimal of the grid `10 ^ power` that lies in the interval of a double and nearest to it, if
    there is one. One quarter place is `numerator / denominator`. -/
def onGrid? (i : Interval) (numerator denominator : Nat) (power : Int) : Option Nat :=
  let scale := numerator * Nat.pow 10 (-power).toNat
  let step := denominator * Nat.pow 10 power.toNat
  let below := i.centre * scale / step
  let rest := i.centre * scale % step
  let holdsBelow := i.contains scale (below * step)
  let holdsAbove := i.contains scale ((below + 1) * step)
  if holdsBelow && (!holdsAbove || decide (2 * rest < step)) then some below
  else if holdsAbove then some (below + 1)
  else none

/-- The first grid from `10 ^ power` downward with a decimal in the interval; the last of `fuel` grids
    gives the decimal just below the double if none has one. -/
def search (i : Interval) (numerator denominator : Nat) : Nat → Int → Decimal
  | 0, power =>
    ⟨i.centre * (numerator * Nat.pow 10 (-power).toNat) / (denominator * Nat.pow 10 power.toNat),
      power⟩
  | fuel + 1, power =>
    match onGrid? i numerator denominator power with
    | some digits => ⟨digits, power⟩
    | none => search i numerator denominator fuel (power - 1)

/-- Trailing zeros moved from the digits into the exponent, at most `fuel` of them. -/
def trim : Nat → Decimal → Decimal
  | 0, d => d
  | fuel + 1, d => if d.digits % 10 = 0 then trim fuel ⟨d.digits / 10, d.exponent + 1⟩ else d

/-- The decimal with the fewest digits that rounds to the double `mantissa * 2 ^ exponent`, for a
    positive mantissa; of several the one nearest to the double. -/
def shortest (mantissa : Nat) (exponent : Int) : Decimal :=
  let i := Interval.ofDouble mantissa exponent
  let numerator := Nat.pow 2 (exponent - 2).toNat
  let denominator := Nat.pow 2 (2 - exponent).toNat
  let power := leadingExponent (i.centre * numerator) denominator
  trim 17 (search i numerator denominator 17 (power - 1))

def digitChars (n : Nat) : List Char :=
  Nat.toDigits 10 n

/-- Digits with a decimal point before the last `places` of them, and a zero in front of the point
    when no digit is left there. -/
def withPoint (digits : List Char) (places : Nat) : List Char :=
  let padded := List.replicate (places + 1 - digits.length) '0' ++ digits
  padded.take (padded.length - places) ++ '.' :: padded.drop (padded.length - places)

/-- Positional notation, without a point for an integer. -/
def positional (d : Decimal) : List Char :=
  if 0 ≤ d.exponent then digitChars d.digits ++ List.replicate d.exponent.toNat '0'
  else withPoint (digitChars d.digits) (-d.exponent).toNat

/-- Scientific notation: one digit before the point and a signed exponent. -/
def scientific (d : Decimal) : List Char :=
  let digits := digitChars d.digits
  let power := d.exponent + (digits.length - 1 : Nat)
  let mantissa := match digits with
    | [] => []
    | [c] => [c]
    | c :: rest => c :: '.' :: rest
  mantissa ++ 'e' :: (if power < 0 then '-' else '+') :: digitChars power.natAbs

/-- Notation that always has a point or an exponent: positional for numbers of at least `0.00001` and
    below `10 ^ 16`, otherwise scientific. -/
def marked (d : Decimal) : List Char :=
  let power := d.exponent + ((digitChars d.digits).length - 1 : Nat)
  if -5 ≤ power ∧ power < 16 then
    if 0 ≤ d.exponent then positional d ++ ['.', '0'] else positional d
  else scientific d

end Decimal

def signed (negative : Bool) (text : List Char) : List Char :=
  if negative then '-' :: text else text

/-- A double written with the fewest digits that read back, never with an exponent; an integer has no
    point. The special values are `NaN`, `inf` and `-inf`. -/
def shortestText (x : Float) : String :=
  match Binary64.ofFloat x with
  | .nan => "NaN"
  | .infinity negative => String.ofList (signed negative "inf".toList)
  | .finite negative mantissa exponent =>
    String.ofList (signed negative
      (if mantissa = 0 then ['0'] else (Decimal.shortest mantissa exponent).positional))

/-- A finite double written with the fewest digits that read back, always with a point or an
    exponent. The special values are `NaN`, `inf` and `-inf`. -/
def exponentText (x : Float) : String :=
  match Binary64.ofFloat x with
  | .nan => "NaN"
  | .infinity negative => String.ofList (signed negative "inf".toList)
  | .finite negative mantissa exponent =>
    String.ofList (signed negative
      (if mantissa = 0 then "0.0".toList else (Decimal.shortest mantissa exponent).marked))

end DelayTuning
