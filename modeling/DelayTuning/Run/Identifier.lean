/-!
# Identifiers

Identifiers of 128 bits. They are written with 32 hexadecimal digits in five groups.

## Main definitions

- `Identifier`: the 32 digits
- `Identifier.ofText?`: the identifier of a text in one of four spellings
- `Identifier.ofBytes`: the identifier of sixteen random bytes
- `Identifier.text`: the spelling with hyphens
-/

namespace DelayTuning

/-- An identifier, as its hexadecimal digits in lower case. -/
structure Identifier where
  digits : List Char
  deriving DecidableEq, Repr

namespace Identifier

/-- Whether a character is a hexadecimal digit. -/
def isHexDigit (c : Char) : Bool :=
  ('0' ≤ c && c ≤ '9') || ('a' ≤ c && c ≤ 'f') || ('A' ≤ c && c ≤ 'F')

def ofDigits? (digits : List Char) : Option Identifier :=
  if digits.length = 32 ∧ digits.all isHexDigit then some ⟨digits.map Char.toLower⟩ else none

/-- The identifier of digits in groups of 8, 4, 4, 4 and 12 with hyphens between them. -/
def ofGroups? (s : List Char) : Option Identifier :=
  if s.length = 36 ∧ [8, 13, 18, 23].all fun i => s[i]? = some '-' then
    ofDigits? (s.take 8 ++ (s.drop 9).take 4 ++ (s.drop 14).take 4 ++ (s.drop 19).take 4 ++ s.drop 24)
  else none

/-- The identifier of a text: digits alone, in groups, in groups between braces, or in groups behind the
    words `urn:uuid:`. -/
def ofText? (text : String) : Option Identifier :=
  let s := text.toList
  if s.length = 32 then ofDigits? s
  else if s.length = 38 ∧ s.head? = some '\x7b' ∧ s.getLast? = some '\x7d' then
    ofGroups? ((s.drop 1).take 36)
  else if "urn:uuid:".toList.isPrefixOf s then ofGroups? (s.drop 9)
  else ofGroups? s

/-- The two digits of a byte. -/
def byteDigits (b : UInt8) : List Char :=
  Nat.toDigits 16 (b.toNat / 16) ++ Nat.toDigits 16 (b.toNat % 16)

/-- The identifier of sixteen random bytes, with the marks of a random identifier. -/
def ofBytes (bytes : List UInt8) : Identifier :=
  let marked := bytes.mapIdx fun i b =>
    if i = 6 then (b &&& 0x0f) ||| 0x40 else if i = 8 then (b &&& 0x3f) ||| 0x80 else b
  ⟨marked.flatMap byteDigits⟩

def text (id : Identifier) : String :=
  String.ofList (id.digits.take 8 ++ '-' :: (id.digits.drop 8).take 4 ++ '-' ::
    (id.digits.drop 12).take 4 ++ '-' :: (id.digits.drop 16).take 4 ++ '-' :: id.digits.drop 20)

end Identifier

end DelayTuning
