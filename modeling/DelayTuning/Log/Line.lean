import DelayTuning.Log.Token

/-!
# Marker lines

A finished run prints its best point on a line with a marker. Behind the marker stand tokens with the
indices `0, 1, …` in any order, separated by commas and blanks only.

## Main definitions

- `LineFault`: why a marker line gives no point
- `readPoint`: the point of the text behind a marker
- `MarkerParser`: a parser for a marker
- `MarkerParser.parseLine?`: the point or the fault of a line, if the line has the marker
-/

namespace DelayTuning

/-- Why a marker line gives no point. -/
inductive LineFault where
  /-- There is no token. -/
  | noTokens
  | duplicateIndex (index : Nat)
  /-- An index does not occur. -/
  | missingIndex (index : Nat)
  /-- A text is no number. -/
  | invalidNumber (text : String)
  /-- The point has another length than the first one of the report. -/
  | dimensionMismatch (expected actual : Nat)
  deriving DecidableEq, Repr

def LineFault.message : LineFault → String
  | .noTokens => "marker present but no [index]=value tokens"
  | .duplicateIndex index => s!"index {index} appears more than once"
  | .missingIndex index => s!"index {index} is missing"
  | .invalidNumber text => "invalid number '" ++ text ++ "'"
  | .dimensionMismatch expected actual => s!"expected {expected} values, found {actual}"

/-- Whether a character may stand between tokens. -/
def isSeparator (c : Char) : Bool :=
  isBlank c || c == ','

/-- A text without separators at its two ends. -/
def trimSeparators (s : List Char) : List Char :=
  ((s.dropWhile isSeparator).reverse.dropWhile isSeparator).reverse

/-- Only separators may stand in a gap; anything else is reported without the separators around it. -/
def checkGap (gap : List Char) : Except LineFault Unit :=
  let leftover := trimSeparators gap
  if leftover.isEmpty then .ok () else .error (.invalidNumber (String.ofList leftover))

/-- The largest index, `2 ^ 64 - 1`. -/
def maxIndex : Nat := UInt64.size - 1

def readIndex (digits : List Char) : Except LineFault Nat :=
  match digitsValue? digits with
  | some n => if n ≤ maxIndex then .ok n else .error (.invalidNumber (String.ofList digits))
  | none => .error (.invalidNumber (String.ofList digits))

def readNumber (n : Numeral) : Except LineFault Float :=
  match n.value? with
  | some x => .ok x
  | none => .error (.invalidNumber (String.ofList n.text))

def readToken (gap : List Char) (token : Token) : Except LineFault (Nat × Float) :=
  match checkGap gap with
  | .error e => .error e
  | .ok () =>
    match readIndex token.index with
    | .error e => .error e
    | .ok index =>
      match readNumber token.number with
      | .error e => .error e
      | .ok value => .ok (index, value)

/-- The indices and numbers of tokens, or the first fault. -/
def readTokens : List (List Char × Token) → Except LineFault (List (Nat × Float))
  | [] => .ok []
  | (gap, token) :: rest =>
    match readToken gap token with
    | .error e => .error e
    | .ok entry =>
      match readTokens rest with
      | .error e => .error e
      | .ok entries => .ok (entry :: entries)

/-- The first index of a sorted list that equals the one after it. -/
def firstRepeat? : List (Nat × Float) → Option Nat
  | (i, _) :: (j, y) :: rest => if i = j then some i else firstRepeat? ((j, y) :: rest)
  | _ => none

/-- The first place, counted from `expected`, where a list has another index than its place. -/
def firstGap? : Nat → List (Nat × Float) → Option Nat
  | _, [] => none
  | expected, (i, _) :: rest => if i = expected then firstGap? (expected + 1) rest else some expected

/-- The numbers in the order of their indices, which must be `0, 1, …` without repetition. -/
def arrange (entries : List (Nat × Float)) : Except LineFault (List Float) :=
  let sorted := entries.mergeSort fun a b => decide (a.1 ≤ b.1)
  match firstRepeat? sorted with
  | some index => .error (.duplicateIndex index)
  | none =>
    match firstGap? 0 sorted with
    | some index => .error (.missingIndex index)
    | none => .ok (sorted.map Prod.snd)

def readPoint (s : List Char) : Except LineFault (List Float) :=
  let pieces := Pieces.ofText s
  match readTokens pieces.tokens with
  | .error e => .error e
  | .ok entries =>
    if entries.isEmpty then .error .noTokens
    else
      match checkGap pieces.tail with
      | .error e => .error e
      | .ok () => arrange entries

/-- What follows the first occurrence of a marker in a text. -/
def afterMarker? (marker : List Char) : List Char → Option (List Char)
  | [] => if marker.isEmpty then some [] else none
  | c :: rest =>
    if marker.isPrefixOf (c :: rest) then some ((c :: rest).drop marker.length)
    else afterMarker? marker rest

/-- A parser for lines with a marker. -/
structure MarkerParser where
  marker : String
  deriving DecidableEq, Repr

namespace MarkerParser

def bestMarker : String := "#### Best para"

def standard : MarkerParser := ⟨bestMarker⟩

/-- The point of a line or what is wrong with it; `none` if the line does not have the marker. -/
def parseChars? (p : MarkerParser) (line : List Char) : Option (Except LineFault (List Float)) :=
  (afterMarker? p.marker.toList line).map readPoint

/-- The point of a line or what is wrong with it; `none` if the line does not have the marker. -/
def parseLine? (p : MarkerParser) (line : String) : Option (Except LineFault (List Float)) :=
  p.parseChars? line.toList

end MarkerParser

end DelayTuning
