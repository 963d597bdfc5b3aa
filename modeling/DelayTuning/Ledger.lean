import DelayTuning.Error

/-!
# The ledger of observations

The append-only record of evaluated candidates. Lower values are better, and the best entry moves only
on a strict improvement, so of equal values the earliest one stays best.

## Main definitions

- `Candidate`, `Observation`: a point and its value
- `Ledger.append`: one more observation; a value that is not finite is refused
- `Ledger.best`: the best observation
- `Ledger.convergence`: the best value so far after each observation
- `Ledger.contains`: whether a point has been observed
-/

namespace DelayTuning

/-- A point that can be evaluated, one coordinate for each parameter. -/
abbrev Candidate := Point Double

def Candidate.ofFloats (coordinates : List Float) : Candidate :=
  coordinates.map Double.ofFloat

/-- The coordinates of a candidate, without the signs of NaNs. -/
def Candidate.toFloats (candidate : Candidate) : List Float :=
  candidate.map Double.toFloat

/-- An evaluated candidate with its objective value; lower is better. -/
structure Observation where
  candidate : Candidate
  value : Float
  deriving DecidableEq, Repr

def infinity : Float := 1.0 / 0.0

/-- The observations in the order of their evaluation, and the index of the best one. -/
structure Ledger where
  entries : List Observation
  bestIndex : Option Nat
  deriving DecidableEq, Repr

namespace Ledger

/-- The ledger without observations. -/
def empty : Ledger := ⟨[], none⟩

def count (l : Ledger) : Nat :=
  l.entries.length

/-- Whether nothing has been observed. -/
def isEmpty (l : Ledger) : Bool :=
  l.entries.isEmpty

/-- The best observation, if there is one. -/
def best? (l : Ledger) : Option Observation :=
  l.bestIndex.bind fun i => l.entries[i]?

/-- The best observation; an empty ledger has none. -/
def best (l : Ledger) : Except TuneError Observation :=
  match l.best? with
  | some observation => .ok observation
  | none => .error .noObservations

/-- Whether a value is strictly better than all recorded ones. -/
def improves (l : Ledger) (value : Float) : Bool :=
  match l.best? with
  | some observation => value < observation.value
  | none => true

/-- A ledger with one more observation. A value that is not finite is refused, since it could not be
    compared with later ones. -/
def append (l : Ledger) (observation : Observation) : Except TuneError Ledger :=
  if observation.value.isFinite then
    .ok {
      entries := l.entries ++ [observation]
      bestIndex := if l.improves observation.value then some l.count else l.bestIndex }
  else .error (.nonFiniteValue l.count observation.value)

/-- A finite value is always recorded, at the end. -/
theorem append_of_isFinite (l : Ledger) {observation : Observation}
    (h : observation.value.isFinite = true) :
    l.append observation = .ok ⟨l.entries ++ [observation],
      if l.improves observation.value then some l.count else l.bestIndex⟩ := by
  simp [append, h]

/-- The running minimum of a list of values, from a starting value on. -/
def runningMinimum : Float → List Float → List Float
  | _, [] => []
  | lowest, value :: rest =>
    let lowest := Scalar.minNum lowest value
    lowest :: runningMinimum lowest rest

@[simp]
theorem length_runningMinimum (lowest : Float) (values : List Float) :
    (runningMinimum lowest values).length = values.length := by
  induction values generalizing lowest with
  | nil => rfl
  | cons value rest ih => simp [runningMinimum, ih]

def convergence (l : Ledger) : List Float :=
  runningMinimum infinity (l.entries.map Observation.value)

@[simp]
theorem length_convergence (l : Ledger) : l.convergence.length = l.count := by
  simp [convergence, count]

/-- Whether a candidate with the same coordinates has been observed. -/
def contains (l : Ledger) (candidate : Candidate) : Bool :=
  l.entries.any fun observation => observation.candidate == candidate

end Ledger

end DelayTuning
