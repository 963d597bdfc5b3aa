/-!
# Lines

A line ends with a line feed, or with a carriage return and a line feed; the end of the last line may be
missing. The rule is stated for sequences of any kind, so that it applies to characters and to bytes.

## Main definitions

- `splitLines`: the lines of a sequence
- `textLines`: the lines of a text
- `byteLines`: the lines of a sequence of bytes
-/

namespace DelayTuning

variable {β : Type} [DecidableEq β]

/-- A finished line, given with its last element first, without a carriage return at its end. -/
def finishLine (carriageReturn : β) : List β → List β
  | [] => []
  | c :: rest => if c = carriageReturn then rest.reverse else (c :: rest).reverse

/-- The lines of a sequence, where `current` is the line begun so far, its last element first. -/
def splitLinesFrom (lineFeed carriageReturn : β) : List β → List β → List (List β)
  | current, [] => if current.isEmpty then [] else [current.reverse]
  | current, c :: rest =>
    if c = lineFeed then
      finishLine carriageReturn current :: splitLinesFrom lineFeed carriageReturn [] rest
    else splitLinesFrom lineFeed carriageReturn (c :: current) rest

/-- The lines of a sequence without their ends. -/
def splitLines (lineFeed carriageReturn : β) (s : List β) : List (List β) :=
  splitLinesFrom lineFeed carriageReturn [] s

def textLines (s : List Char) : List (List Char) :=
  splitLines '\n' '\r' s

def byteLines (s : List UInt8) : List (List UInt8) :=
  splitLines 10 13 s

end DelayTuning
