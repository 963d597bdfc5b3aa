import DelayTuning.Text.Character

/-!
# Reading decimals

Decimal numerals with an optional sign, point and exponent, and the doubles that they denote.

## Main definitions

- `Numeral`: the parts of a numeral, with its text
- `Numeral.scan?`: the longest numeral at the front of a text
- `Numeral.value?`: the double nearest to the number of a numeral
-/

namespace DelayTuning

/-- The double nearest to `± digits * 10 ^ exponent`. -/
def nearestDouble (negative : Bool) (digits : Nat) (exponent : Int) : Float :=
  let size := Float.ofScientific digits (exponent < 0) exponent.natAbs
  if negative then -size else size

/-- Whether a character is a sign. -/
def isSign (c : Char) : Bool :=
  c == '+' || c == '-'

/-- The exponent part of a numeral. -/
structure ExponentPart where
  /-- The letter in front, `e` or `E`. -/
  mark : Char
  /-- The sign, empty or one character. -/
  sign : List Char
  digits : List Char
  deriving DecidableEq, Repr

/-- A numeral: a sign, digits around a point, and an exponent. The digits may be those of any
    script. -/
structure Numeral where
  /-- The sign, empty or one character. -/
  sign : List Char
  whole : List Char
  /-- The point, empty or one character. -/
  point : List Char
  fraction : List Char
  exponent : Option ExponentPart
  deriving DecidableEq, Repr

def ExponentPart.text (e : ExponentPart) : List Char :=
  e.mark :: e.sign ++ e.digits

namespace Numeral

def text (n : Numeral) : List Char :=
  n.sign ++ n.whole ++ n.point ++ n.fraction
    ++ match n.exponent with
      | some e => e.text
      | none => []

/-- A sign at the front of a text, with what follows it. -/
def scanSign : List Char → List Char × List Char
  | c :: rest => if isSign c then ([c], rest) else ([], c :: rest)
  | [] => ([], [])

/-- The digits at the front of a text, with what follows them. -/
def scanDigits (s : List Char) : List Char × List Char :=
  (s.takeWhile isDecimalDigit, s.dropWhile isDecimalDigit)

/-- An exponent part at the front of a text, with what follows it. The letter counts only if a digit
    comes after it. -/
def scanExponent : List Char → Option ExponentPart × List Char
  | [] => (none, [])
  | c :: rest =>
    if c == 'e' || c == 'E' then
      let (sign, afterSign) := scanSign rest
      let (digits, afterDigits) := scanDigits afterSign
      if digits.isEmpty then (none, c :: rest) else (some ⟨c, sign, digits⟩, afterDigits)
    else (none, c :: rest)

/-- The digits and the point at the front of a text, with what follows them: digits with an optional
    point and more digits, or a point with digits after it. -/
def scanDigitsAndPoint? (s : List Char) : Option ((List Char × List Char × List Char) × List Char) :=
  let (whole, rest) := scanDigits s
  match rest with
  | '.' :: afterPoint =>
    let (fraction, afterFraction) := scanDigits afterPoint
    if whole.isEmpty && fraction.isEmpty then none
    else some ((whole, ['.'], fraction), afterFraction)
  | _ => if whole.isEmpty then none else some ((whole, [], []), rest)

/-- The longest numeral at the front of a text, with what follows it. -/
def scan? (s : List Char) : Option (Numeral × List Char) :=
  let (sign, afterSign) := scanSign s
  match scanDigitsAndPoint? afterSign with
  | some ((whole, point, fraction), afterDigits) =>
    let (exponent, rest) := scanExponent afterDigits
    some (⟨sign, whole, point, fraction, exponent⟩, rest)
  | none => none

/-- The power of ten of an exponent part; `none` if a digit is not one of `0` to `9`. -/
def exponentValue? : Option ExponentPart → Option Int
  | none => some 0
  | some e =>
    match digitsValue? e.digits with
    | some n => some (if e.sign = ['-'] then -(n : Int) else n)
    | none => none

/-- The double nearest to the number of a numeral; `none` if a digit is not one of `0` to `9`. -/
def value? (n : Numeral) : Option Float :=
  match digitsValue? (n.whole ++ n.fraction), exponentValue? n.exponent with
  | some digits, some exponent =>
    some (nearestDouble (n.sign = ['-']) digits (exponent - n.fraction.length))
  | _, _ => none

end Numeral

end DelayTuning
