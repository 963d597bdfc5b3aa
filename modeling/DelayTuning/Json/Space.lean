import DelayTuning.Error
import DelayTuning.Json.Decode

/-!
# Parameter spaces as JSON

A space is read by the same check as any list of parameters, so a text cannot smuggle in a list that is
no space.

## Main definitions

- `Parameter.toJson`, `Parameter.ofJson?`: a parameter
- `Space.toJson`, `Space.ofJson`: a space
- `SpaceDecodeFault`: why a value is no space
-/

namespace DelayTuning

namespace Parameter

/-- The kind of all parameters. -/
def kindName : String := "Continuous"

def fields : List Json.FieldSpec :=
  [Json.required "name", Json.required "kind", Json.required "lower", Json.required "upper"]

def toJson (p : Parameter Double) : Json :=
  .object [("name", .text p.name), ("kind", .text kindName), ("lower", .float p.lower.toFloat),
    ("upper", .float p.upper.toFloat)]

def ofJson? (v : Json) : Option (Parameter Double) :=
  match Json.record? fields v with
  | some [name, kind, lower, upper] => do
    let name ← name.asText?
    let kind ← kind.plain?
    let lower ← lower.asFloat?
    let upper ← upper.asFloat?
    if kind = kindName then some ⟨name, .ofFloat lower, .ofFloat upper⟩ else none
  | _ => none

end Parameter

/-- Why a JSON value is no space. -/
inductive SpaceDecodeFault where
  /-- The value does not hold a list of parameters. -/
  | shape
  /-- The list of parameters makes no space. -/
  | space (fault : SpaceFault Double)
  deriving DecidableEq, Repr

/-- The error of the engine behind a fault, if there is one. -/
def SpaceDecodeFault.cause? : SpaceDecodeFault → Option TuneError
  | .shape => none
  | .space fault => some (.invalidSpace fault)

namespace Space

def toJson (s : Space Double) : Json :=
  .object [("specs", .array (s.parameters.map Parameter.toJson))]

def parametersOfJson? (v : Json) : Option (List (Parameter Double)) :=
  match v.record? [Json.required "specs"] with
  | some [list] => list.asList? Parameter.ofJson?
  | _ => none

/-- The space of a JSON value, or why there is none. -/
def ofJson (v : Json) : Except SpaceDecodeFault (Space Double) :=
  match parametersOfJson? v with
  | none => .error .shape
  | some parameters =>
    match ofParameters parameters with
    | .ok s => .ok s
    | .error fault => .error (.space fault)

end Space

end DelayTuning
