/-!
# JSON values

Values of the JSON data format. Integers that fit into 64 bits are kept apart from other numbers, since
a count must be written as an integer.

## Main definitions

- `Json`: the values
- `Json.field?`: the value of a key
- `Json.insertField`: a field that replaces an earlier one with the same key
-/

namespace DelayTuning

/-- A value of the JSON data format. -/
inductive Json where
  | null
  | bool (value : Bool)
  /-- A number written as an integer of at most 64 bits. -/
  | integer (value : Int)
  | float (value : Float)
  | text (value : String)
  | array (items : List Json)
  | object (fields : List (String × Json))
  deriving Inhabited

namespace Json

def lookup? (key : String) : List (String × Json) → Option Json
  | [] => none
  | (k, v) :: rest => if k = key then some v else lookup? key rest

def field? (key : String) : Json → Option Json
  | .object fields => lookup? key fields
  | _ => none

/-- Fields with one more at the end, which takes the place of an earlier one with the same key. -/
def insertField (key : String) (value : Json) : List (String × Json) → List (String × Json)
  | [] => [(key, value)]
  | (k, v) :: rest =>
    if k = key then (key, value) :: rest else (k, v) :: insertField key value rest

def natural (n : Nat) : Json := .integer n

def floats (xs : List Float) : Json := .array (xs.map .float)

/-- Possibly a value, null if there is none. -/
def ofOption : Option Json → Json
  | some v => v
  | none => .null

end Json

end DelayTuning
