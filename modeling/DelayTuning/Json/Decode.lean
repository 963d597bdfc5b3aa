import DelayTuning.Json.Basic

/-!
# Reading structures from JSON values

The common rules by which records and alternatives are read. A record is an object with all its fields,
or an array with exactly its fields in order; an alternative without data is its name, or an object with
its name as the only key and null as value; an alternative with data is an object with its name as the
only key and an object as value. Unknown fields are ignored.

## Main definitions

- `Json.FieldSpec`, `Json.record?`: the values of the fields of a record
- `Json.plain?`, `Json.tagged?`: alternatives without and with data
- `Json.asFloat?`, `Json.asCount?`, `Json.asText?`, `Json.asList?`: single values
-/

namespace DelayTuning

namespace Json

/-- A field of a record. An optional field that is missing counts as null. -/
structure FieldSpec where
  name : String
  optional : Bool
  deriving DecidableEq, Repr

def required (name : String) : FieldSpec := ⟨name, false⟩

def optional (name : String) : FieldSpec := ⟨name, true⟩

def fieldValue? (fields : List (String × Json)) (spec : FieldSpec) : Option Json :=
  match lookup? spec.name fields with
  | some value => some value
  | none => if spec.optional then some .null else none

/-- The values of the fields of a record, in the order of the fields. -/
def record? (specs : List FieldSpec) : Json → Option (List Json)
  | .object fields => specs.mapM (fieldValue? fields)
  | .array items => if items.length = specs.length then some items else none
  | _ => none

/-- The values of the fields of a record that is an object. -/
def objectRecord? (specs : List FieldSpec) : Json → Option (List Json)
  | .object fields => specs.mapM (fieldValue? fields)
  | _ => none

/-- The name of an alternative without data. -/
def plain? : Json → Option String
  | .text name => some name
  | .object [(name, .null)] => some name
  | _ => none

def tagged? : Json → Option (String × Json)
  | .object [(name, content)] => some (name, content)
  | _ => none

def asFloat? : Json → Option Float
  | .integer n => some (Float.ofInt n)
  | .float x => some x
  | _ => none

def asOptionalFloat? : Json → Option (Option Float)
  | .null => some none
  | v => (asFloat? v).map some

/-- An integer from zero to `limit`. -/
def asBounded? (limit : Nat) : Json → Option Nat
  | .integer n => if 0 ≤ n ∧ n ≤ limit then some n.toNat else none
  | _ => none

/-- An integer that fits into 64 bits without sign. -/
def asCount? : Json → Option Nat :=
  asBounded? (UInt64.size - 1)

/-- An integer that fits into 32 bits without sign. -/
def asSmallCount? : Json → Option Nat :=
  asBounded? (UInt32.size - 1)

def asText? : Json → Option String
  | .text s => some s
  | _ => none

def asBool? : Json → Option Bool
  | .bool b => some b
  | _ => none

/-- A list, each of whose items can be read. -/
def asList? {β : Type} (read : Json → Option β) : Json → Option (List β)
  | .array items => items.mapM read
  | _ => none

def asFloats? : Json → Option (List Float) :=
  asList? asFloat?

end Json

end DelayTuning
