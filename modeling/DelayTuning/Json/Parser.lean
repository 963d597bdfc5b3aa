import DelayTuning.Decimal.Read
import DelayTuning.Json.Basic

/-!
# Reading JSON

A reader for JSON text. A number without point and exponent that fits into 64 bits is an integer, every
other number is read to the nearest double. Of several fields with one key the last one counts.

## Main definitions

- `Json.parseString?`, `Json.parseNumber?`: texts and numbers
- `Json.parseValue?`: a value at the front of a text
- `Json.ofText?`: the value of a whole text
-/

namespace DelayTuning

namespace Json

/-- Whether a character may stand between the parts of a value. -/
def isSpace (c : Char) : Bool :=
  c == ' ' || c == '\t' || c == '\n' || c == '\r'

/-- A text without the space in front. -/
def skipSpace (s : List Char) : List Char :=
  s.dropWhile isSpace

def hexValue? (c : Char) : Option Nat :=
  if '0' ≤ c ∧ c ≤ '9' then some (c.toNat - '0'.toNat)
  else if 'a' ≤ c ∧ c ≤ 'f' then some (c.toNat - 'a'.toNat + 10)
  else if 'A' ≤ c ∧ c ≤ 'F' then some (c.toNat - 'A'.toNat + 10)
  else none

/-- The number of four hexadecimal digits at the front of a text, with what follows them. -/
def parseHex? : List Char → Option (Nat × List Char)
  | a :: b :: c :: d :: rest => do
    let a ← hexValue? a
    let b ← hexValue? b
    let c ← hexValue? c
    let d ← hexValue? d
    some (((a * 16 + b) * 16 + c) * 16 + d, rest)
  | _ => none

/-- The character of an escape by number: one unit, or a high and a low surrogate. A lone surrogate is
    no character. -/
def parseUnicode? (s : List Char) : Option (Char × List Char) :=
  match parseHex? s with
  | none => none
  | some (unit, rest) =>
    if 0xD800 ≤ unit ∧ unit < 0xDC00 then
      match rest with
      | '\\' :: 'u' :: rest =>
        match parseHex? rest with
        | some (low, rest) =>
          if 0xDC00 ≤ low ∧ low < 0xE000 then
            some (Char.ofNat (0x10000 + (unit - 0xD800) * 0x400 + (low - 0xDC00)), rest)
          else none
        | none => none
      | _ => none
    else if 0xDC00 ≤ unit ∧ unit < 0xE000 then none
    else some (Char.ofNat unit, rest)

/-- The character of an escape, given behind its backslash. -/
def parseEscape? : List Char → Option (Char × List Char)
  | '"' :: rest => some ('"', rest)
  | '\\' :: rest => some ('\\', rest)
  | '/' :: rest => some ('/', rest)
  | 'b' :: rest => some ('\x08', rest)
  | 'f' :: rest => some ('\x0c', rest)
  | 'n' :: rest => some ('\n', rest)
  | 'r' :: rest => some ('\r', rest)
  | 't' :: rest => some ('\t', rest)
  | 'u' :: rest => parseUnicode? rest
  | _ => none

/-- The rest of a text in quotes, given behind its opening quote; `done` holds the characters so far, the
    latest first. -/
def parseStringFrom? : Nat → List Char → List Char → Option (String × List Char)
  | 0, _, _ => none
  | _ + 1, _, [] => none
  | fuel + 1, done, c :: rest =>
    if c = '"' then some (String.ofList done.reverse, rest)
    else if c = '\\' then
      match parseEscape? rest with
      | some (e, rest) => parseStringFrom? fuel (e :: done) rest
      | none => none
    else if c.toNat < 0x20 then none
    else parseStringFrom? fuel (c :: done) rest

/-- A text in quotes, given behind its opening quote, with what follows it. -/
def parseString? (s : List Char) : Option (String × List Char) :=
  parseStringFrom? (s.length + 1) [] s

/-- Whether a character is one of the digits `0` to `9`. -/
def isDigit (c : Char) : Bool :=
  '0' ≤ c && c ≤ '9'

/-- The digits at the front of a text, with what follows them. -/
def spanDigits (s : List Char) : List Char × List Char :=
  (s.takeWhile isDigit, s.dropWhile isDigit)

/-- The fraction at the front of a text, if there is one: the digits behind a point. A point without
    digits is refused. -/
def parseFraction? : List Char → Option (Option (List Char) × List Char)
  | '.' :: rest =>
    let (digits, rest) := spanDigits rest
    if digits.isEmpty then none else some (some digits, rest)
  | s => some (none, s)

/-- The exponent at the front of a text, if there is one. A letter without digits is refused. -/
def parseExponent? : List Char → Option (Option Int × List Char)
  | c :: rest =>
    if c = 'e' ∨ c = 'E' then
      let (negative, rest) := match rest with
        | '-' :: rest => (true, rest)
        | '+' :: rest => (false, rest)
        | rest => (false, rest)
      let (digits, rest) := spanDigits rest
      match digits.isEmpty, digitsValue? digits with
      | false, some n => some (some (if negative then -(n : Int) else n), rest)
      | _, _ => none
    else some (none, c :: rest)
  | [] => some (none, [])

def ofNumberParts (negative : Bool) (whole : List Char) (fraction : Option (List Char))
    (exponent : Option Int) : Json :=
  let digits := (digitsValue? (whole ++ fraction.getD [])).getD 0
  let nearest := nearestDouble negative digits (exponent.getD 0 - (fraction.getD []).length)
  if fraction.isSome || exponent.isSome then .float nearest
  else if negative then
    if digits = 0 then .float nearest
    else if digits ≤ Nat.pow 2 63 then .integer (-(digits : Int))
    else .float nearest
  else if digits < UInt64.size then .integer digits
  else .float nearest

/-- A number at the front of a text, with what follows it. The digits before the point have no needless
    zero in front. -/
def parseNumber? (s : List Char) : Option (Json × List Char) :=
  let (negative, s) := match s with
    | '-' :: rest => (true, rest)
    | s => (false, s)
  let (whole, s) := spanDigits s
  if whole.isEmpty || (decide (1 < whole.length) && whole.headD '0' == '0') then none
  else
    match parseFraction? s with
    | none => none
    | some (fraction, s) =>
      match parseExponent? s with
      | none => none
      | some (exponent, s) => some (ofNumberParts negative whole fraction exponent, s)

/-- A given word at the front of a text; what follows it. -/
def expectWord? (word : String) (s : List Char) : Option (List Char) :=
  if word.toList.isPrefixOf s then some (s.drop word.length) else none

mutual

/-- The value at the front of a text, with what follows it. -/
def parseValue? : Nat → List Char → Option (Json × List Char)
  | 0, _ => none
  | fuel + 1, s =>
    match skipSpace s with
    | '"' :: rest => (parseString? rest).map fun (t, rest) => (.text t, rest)
    | '[' :: rest =>
      match skipSpace rest with
      | ']' :: rest => some (.array [], rest)
      | rest => (parseItems? fuel rest).map fun (items, rest) => (.array items, rest)
    | '\x7b' :: rest =>
      match skipSpace rest with
      | '\x7d' :: rest => some (.object [], rest)
      | rest => (parseFields? fuel [] rest).map fun (fields, rest) => (.object fields, rest)
    | 'n' :: rest => (expectWord? "ull" rest).map fun rest => (.null, rest)
    | 't' :: rest => (expectWord? "rue" rest).map fun rest => (.bool true, rest)
    | 'f' :: rest => (expectWord? "alse" rest).map fun rest => (.bool false, rest)
    | s => parseNumber? s

/-- The items of an array at the front of a text, up to the closing bracket. -/
def parseItems? : Nat → List Char → Option (List Json × List Char)
  | 0, _ => none
  | fuel + 1, s =>
    match parseValue? fuel s with
    | none => none
    | some (item, rest) =>
      match skipSpace rest with
      | ',' :: rest => (parseItems? fuel rest).map fun (items, rest) => (item :: items, rest)
      | ']' :: rest => some ([item], rest)
      | _ => none

/-- The fields of an object at the front of a text, up to the closing brace, after those in `done`. -/
def parseFields? : Nat → List (String × Json) → List Char → Option (List (String × Json) × List Char)
  | 0, _, _ => none
  | fuel + 1, done, s =>
    match skipSpace s with
    | '"' :: rest =>
      match parseString? rest with
      | none => none
      | some (key, rest) =>
        match skipSpace rest with
        | ':' :: rest =>
          match parseValue? fuel rest with
          | none => none
          | some (value, rest) =>
            match skipSpace rest with
            | ',' :: rest => parseFields? fuel (insertField key value done) rest
            | '\x7d' :: rest => some (insertField key value done, rest)
            | _ => none
        | _ => none
    | _ => none

end

/-- The value of a text, with nothing but space around it. -/
def ofText? (s : String) : Option Json :=
  let chars := s.toList
  match parseValue? (2 * chars.length + 2) chars with
  | some (value, rest) => if (skipSpace rest).isEmpty then some value else none
  | none => none

end Json

end DelayTuning
