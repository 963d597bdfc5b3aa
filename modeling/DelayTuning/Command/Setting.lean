import DelayTuning.Text.Character

/-!
# Settings from the environment

The commands take their numbers from environment variables. A number is written with digits `0` to `9`
behind an optional plus sign and must fit into 64 bits.

## Main definitions

- `Environment`: the values of the variables
- `CountFault`: why a text is no number, with `CountFault.message`
- `readCount`: the number of a text
-/

namespace DelayTuning

/-- The values of the environment variables. -/
abbrev Environment := String → Option String

/-- Why a text is no number of 64 bits. -/
inductive CountFault where
  | empty
  /-- A character is no digit, or nothing follows a sign. -/
  | invalidDigit
  /-- The digits up to some place make a number that is too large. -/
  | tooLarge
  deriving DecidableEq, Repr

def CountFault.message : CountFault → String
  | .empty => "cannot parse integer from empty string"
  | .invalidDigit => "invalid digit found in string"
  | .tooLarge => "number too large to fit in target type"

/-- The first number that does not fit into 64 bits. -/
def countLimit : Nat := UInt64.size

/-- The number written with the given digits after those of `value`. The first character that is no
    digit or makes the number too large decides on the fault. -/
def readDigitsFrom : Nat → List Char → Except CountFault Nat
  | value, [] => .ok value
  | value, c :: rest =>
    match digitValue? c with
    | none => .error .invalidDigit
    | some d =>
      if 10 * value + d < countLimit then readDigitsFrom (10 * value + d) rest
      else .error .tooLarge

/-- The number written with at least one digit. -/
def readDigits : List Char → Except CountFault Nat
  | [] => .error .invalidDigit
  | digits => readDigitsFrom 0 digits

def readCount (text : String) : Except CountFault Nat :=
  match text.toList with
  | [] => .error .empty
  | '+' :: digits => readDigits digits
  | digits => readDigits digits

end DelayTuning
