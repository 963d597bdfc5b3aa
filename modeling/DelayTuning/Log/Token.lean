import DelayTuning.Decimal.Read

/-!
# Tokens of a marker line

After its marker a line carries tokens such as `[3] = 0.25`: an index in brackets, an equals sign and a
number. Anything between two tokens is a gap.

## Main definitions

- `Token`: the parts of a token, with its text
- `Token.scan?`: the token at the front of a text
- `nextToken?`: the first token of a text, with the gap before it
- `Pieces.ofText`: a text cut into gaps and tokens
-/

namespace DelayTuning

/-- A token: an index in brackets and a number, with the blanks around the equals sign. -/
structure Token where
  index : List Char
  before : List Char
  after : List Char
  number : Numeral
  deriving DecidableEq, Repr

namespace Token

def text (t : Token) : List Char :=
  '[' :: t.index ++ ']' :: t.before ++ '=' :: t.after ++ t.number.text

/-- A given character at the front of a text; what follows it. -/
def expect? (c : Char) : List Char → Option (List Char)
  | d :: rest => if d = c then some rest else none
  | [] => none

/-- The index in brackets at the front of a text, with what follows it. -/
def scanIndex? (s : List Char) : Option (List Char × List Char) :=
  match expect? '[' s with
  | none => none
  | some inside =>
    let (index, rest) := Numeral.scanDigits inside
    if index.isEmpty then none
    else (expect? ']' rest).map fun afterBracket => (index, afterBracket)

/-- The token at the front of a text, with what follows it. -/
def scan? (s : List Char) : Option (Token × List Char) :=
  match scanIndex? s with
  | none => none
  | some (index, afterBracket) =>
    match expect? '=' (afterBracket.dropWhile isBlank) with
    | none => none
    | some afterEquals =>
      match Numeral.scan? (afterEquals.dropWhile isBlank) with
      | none => none
      | some (number, rest) =>
        some (⟨index, afterBracket.takeWhile isBlank, afterEquals.takeWhile isBlank, number⟩, rest)

end Token

/-- The first token of a text, with the gap before it and what follows it. -/
def nextToken? : List Char → Option (List Char × Token × List Char)
  | [] => none
  | c :: rest =>
    match Token.scan? (c :: rest) with
    | some (token, after) => some ([], token, after)
    | none => (nextToken? rest).map fun (gap, token, after) => (c :: gap, token, after)

/-- A text cut into tokens, each with the gap before it, and the gap at the end. -/
structure Pieces where
  tokens : List (List Char × Token)
  tail : List Char
  deriving DecidableEq, Repr

namespace Pieces

def text (p : Pieces) : List Char :=
  (p.tokens.map fun (gap, token) => gap ++ token.text).flatten ++ p.tail

/-- The pieces of a text with at most `fuel` tokens. -/
def ofTextWith : Nat → List Char → Pieces
  | 0, s => ⟨[], s⟩
  | fuel + 1, s =>
    match nextToken? s with
    | none => ⟨[], s⟩
    | some (gap, token, rest) =>
      let pieces := ofTextWith fuel rest
      ⟨(gap, token) :: pieces.tokens, pieces.tail⟩

/-- The pieces of a text. A token takes at least one character, so the length of the text bounds their
    number. -/
def ofText (s : List Char) : Pieces :=
  ofTextWith s.length s

end Pieces

end DelayTuning
