import DelayTuning.Decimal.Shortest

/-!
# Fixed places

A double written with a fixed number of places after the point. The digits are those of the exact
number, rounded once, and a tie goes to the even neighbour.

## Main definitions

- `divideTiesToEven`: an exact quotient rounded to the nearest integer
- `fixedChars`, `fixedText`: a double with a given number of places
-/

namespace DelayTuning

/-- The integer nearest to `numerator / denominator`; of two equally near ones the even one. -/
def divideTiesToEven (numerator denominator : Nat) : Nat :=
  let quotient := numerator / denominator
  let rest := numerator % denominator
  if 2 * rest < denominator then quotient
  else if denominator < 2 * rest then quotient + 1
  else if quotient % 2 = 0 then quotient
  else quotient + 1

/-- The number `mantissa * 2 ^ exponent` in units of the last of `places` decimal places. -/
def scaledToPlaces (places mantissa : Nat) (exponent : Int) : Nat :=
  divideTiesToEven (mantissa * Nat.pow 2 exponent.toNat * Nat.pow 10 places)
    (Nat.pow 2 (-exponent).toNat)

/-- A double with `places` digits after the point, and no point when there are none. The sign is kept
    also when all digits are zero. -/
def fixedChars (places : Nat) (x : Float) : List Char :=
  match Binary64.ofFloat x with
  | .nan => ['N', 'a', 'N']
  | .infinity negative => signed negative ['i', 'n', 'f']
  | .finite negative mantissa exponent =>
    let digits := Decimal.digitChars (scaledToPlaces places mantissa exponent)
    signed negative (if places = 0 then digits else Decimal.withPoint digits places)

/-- A double as text with `places` digits after the point. -/
def fixedText (places : Nat) (x : Float) : String :=
  String.ofList (fixedChars places x)

end DelayTuning
