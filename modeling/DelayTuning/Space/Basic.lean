import DelayTuning.Point

/-!
# Parameter spaces

A parameter is a named interval; a space is a list of parameters with finite, ordered bounds and
pairwise distinct names, at least one of them. Only such lists are spaces: the property is part of
the type, and `Space.ofParameters` refuses every other list with its first fault.

## Main definitions

- `Parameter`: a name with a lower and an upper bound
- `WellFormed`: the lists of parameters that make a space
- `Space`: a well-formed list of parameters
- `fault?`: the first fault of a list
- `Space.ofParameters`: the space of a list, or its first fault
- `Space.validate`: whether a point has one coordinate in bounds for each parameter
- `Space.toUnit`, `Space.ofUnit`: between the space and the unit cube

## Main statements

- `fault?_eq_none_iff`: a list has no fault iff it is well-formed
-/

namespace DelayTuning

/-- A tunable parameter: every number from `lower` to `upper` is allowed. -/
structure Parameter (α : Type) where
  name : String
  lower : α
  upper : α
  deriving DecidableEq, Repr

namespace Parameter

variable {α : Type} [Scalar α]

@[specialize]
def width (p : Parameter α) : α :=
  p.upper - p.lower

/-- Whether a number lies between the bounds. -/
@[specialize]
def contains (p : Parameter α) (x : α) : Bool :=
  decide (p.lower ≤ x) && decide (x ≤ p.upper)

/-- Whether both bounds are finite numbers. -/
@[specialize]
def hasFiniteBounds (p : Parameter α) : Bool :=
  Scalar.isFinite p.lower && Scalar.isFinite p.upper

/-- Finite bounds in the right order. -/
def Bounded (p : Parameter α) : Prop :=
  p.hasFiniteBounds = true ∧ ¬ p.upper < p.lower

instance instDecidableBounded (p : Parameter α) : Decidable p.Bounded :=
  inferInstanceAs (Decidable (_ ∧ _))

end Parameter

/-- What is wrong with a list of parameters. -/
inductive SpaceFault (α : Type) where
  /-- There is no parameter. -/
  | noParameters
  | nonFiniteBounds (parameter : Parameter α)
  | invertedBounds (parameter : Parameter α)
  /-- An earlier parameter has the same name. -/
  | duplicateName (name : String)
  | described (text : String)
  deriving DecidableEq, Repr

section Faults

variable {α : Type} [Scalar α]

/-- The lists of parameters that make a space. -/
structure WellFormed (parameters : List (Parameter α)) : Prop where
  /-- There is at least one parameter. -/
  nonempty : parameters ≠ []
  /-- All bounds are finite and in order. -/
  bounded : ∀ p ∈ parameters, p.Bounded
  distinct : (parameters.map Parameter.name).Nodup

/-- The first parameter at fault, where the names in `seen` are taken. -/
@[specialize]
def faultAfter? (seen : List String) : List (Parameter α) → Option (SpaceFault α)
  | [] => none
  | p :: rest =>
    if !p.hasFiniteBounds then some (.nonFiniteBounds p)
    else if p.upper < p.lower then some (.invertedBounds p)
    else if seen.contains p.name then some (.duplicateName p.name)
    else faultAfter? (p.name :: seen) rest

/-- The first fault of a list of parameters. -/
@[specialize]
def fault? (parameters : List (Parameter α)) : Option (SpaceFault α) :=
  if parameters.isEmpty then some .noParameters else faultAfter? [] parameters

theorem faultAfter?_eq_none_iff (seen : List String) (parameters : List (Parameter α)) :
    faultAfter? seen parameters = none ↔
      (∀ p ∈ parameters, p.Bounded) ∧ (parameters.map Parameter.name).Nodup ∧
        ∀ p ∈ parameters, p.name ∉ seen := by
  induction parameters generalizing seen with
  | nil => simp [faultAfter?]
  | cons p rest ih =>
    rw [faultAfter?]
    by_cases hfinite : p.hasFiniteBounds = true
    · by_cases horder : p.upper < p.lower
      · simp [hfinite, horder, Parameter.Bounded]
      · by_cases hseen : p.name ∈ seen
        · simp [hfinite, horder, hseen]
        · simp only [hfinite, Bool.not_true, Bool.false_eq_true, if_false, horder,
            List.contains_iff_mem, hseen, ih, List.mem_cons, forall_eq_or_imp, List.map_cons,
            List.nodup_cons, List.mem_map, not_exists, not_and]
          constructor
          · rintro ⟨hbounded, hnodup, hnew⟩
            refine ⟨⟨⟨hfinite, horder⟩, hbounded⟩, ⟨?_, hnodup⟩, not_false, ?_⟩
            · intro q hq hname
              exact hnew q hq (Or.inl hname)
            · intro q hq hmem
              exact hnew q hq (Or.inr hmem)
          · rintro ⟨⟨-, hbounded⟩, ⟨hfresh, hnodup⟩, -, hrest⟩
            refine ⟨hbounded, hnodup, ?_⟩
            rintro q hq (hname | hmem)
            · exact hfresh q hq hname
            · exact hrest q hq hmem
    · simp [hfinite, Parameter.Bounded]

theorem fault?_eq_none_iff (parameters : List (Parameter α)) :
    fault? parameters = none ↔ WellFormed parameters := by
  cases parameters with
  | nil => simpa [fault?] using fun h : WellFormed ([] : List (Parameter α)) => h.nonempty rfl
  | cons p rest =>
    have hiff := faultAfter?_eq_none_iff [] (p :: rest)
    simp only [fault?, List.isEmpty_cons, Bool.false_eq_true, if_false, hiff]
    constructor
    · rintro ⟨hbounded, hnodup, -⟩
      exact ⟨List.cons_ne_nil p rest, hbounded, hnodup⟩
    · intro h
      exact ⟨h.bounded, h.distinct, by simp⟩

end Faults

/-- A search space: a well-formed list of parameters. -/
structure Space (α : Type) [Scalar α] where
  /-- The parameters, one for each coordinate. -/
  parameters : List (Parameter α)
  wellFormed : WellFormed parameters

namespace Space

variable {α : Type} [Scalar α]

@[ext]
theorem ext {s t : Space α} (h : s.parameters = t.parameters) : s = t := by
  cases s
  cases t
  cases h
  rfl

instance [DecidableEq α] : DecidableEq (Space α) := fun s t =>
  decidable_of_iff (s.parameters = t.parameters) ⟨Space.ext, fun h => h ▸ rfl⟩

/-- The space of a list of parameters, or the first fault of the list. -/
@[specialize]
def ofParameters (parameters : List (Parameter α)) : Except (SpaceFault α) (Space α) :=
  match h : fault? parameters with
  | none => .ok ⟨parameters, (fault?_eq_none_iff parameters).mp h⟩
  | some fault => .error fault

def dimension (s : Space α) : Nat :=
  s.parameters.length

/-- The names of the parameters in order. -/
def names (s : Space α) : List String :=
  s.parameters.map Parameter.name

/-- Whether a point has one coordinate for each parameter, all of them within bounds. -/
@[specialize]
def validate (s : Space α) (x : Point α) : Bool :=
  x.length == s.dimension && (s.parameters.zip x).all (fun (p, c) => p.contains c)

/-- A point of the space moved to the unit cube. A parameter without width is sent to the middle. -/
@[specialize]
def toUnit (s : Space α) (x : Point α) : Point α :=
  List.zipWith (fun p c => if p.width == 0.0 then 0.5 else (c - p.lower) / p.width) s.parameters x

@[specialize]
def ofUnit (s : Space α) (u : Point α) : Point α :=
  List.zipWith (fun p c => p.lower + c * p.width) s.parameters u

/-- A point with every coordinate moved to the nearer bound where it lies outside. -/
@[specialize]
def clamp (s : Space α) (x : Point α) : Point α :=
  List.zipWith (fun p c => Scalar.clamp p.lower p.upper c) s.parameters x

end Space

end DelayTuning
