import DelayTuning.Proofs.Random.Draw
import DelayTuning.Space.Draw

/-!
# The size of drawn points

A uniform point has one coordinate for each parameter, and a Latin hypercube has as many points as it
was asked for.

## Main statements

- `length_of_uniform`: the number of coordinates of a uniform point
- `length_clamp`: moving a point into the bounds keeps its coordinates
- `length_latinHypercube`: the number of points of a Latin hypercube
-/

namespace DelayTuning

variable {α : Type} [Scalar α]

theorem length_of_uniformCoordinates {parameters : List (Parameter α)} {x : Point α}
    {g : Generator} (h : (uniformCoordinates parameters g).1 = some x) :
    x.length = parameters.length := by
  induction parameters generalizing x g with
  | nil => simpa [uniformCoordinates] using h.symm
  | cons p rest ih =>
    simp only [uniformCoordinates] at h
    split at h
    · obtain ⟨tail, htail, rfl⟩ := Option.map_eq_some_iff.mp h
      simp [ih htail]
    · split at h
      · obtain ⟨tail, htail, rfl⟩ := Option.map_eq_some_iff.mp h
        simp [ih htail]
      · exact absurd h (by simp)

@[simp]
theorem length_stratifiedCoordinates (p : Parameter α) (n : Nat) (strata : List Nat)
    (g : Generator) : (stratifiedCoordinates p n strata g).1.length = strata.length := by
  induction strata generalizing g with
  | nil => rfl
  | cons stratum rest ih => simp [stratifiedCoordinates, ih]

/-- Extending points coordinate by coordinate keeps their number if there is a stratum for each. -/
theorem length_extendStratified (n : Nat) (parameters : List (Parameter α)) (strata : List Nat)
    (points : List (Point α)) (g : Generator) (h : strata.length = points.length) :
    (extendStratified n parameters strata points g).1.length = points.length := by
  induction parameters generalizing strata points g with
  | nil => rfl
  | cons p rest ih =>
    simp only [extendStratified]
    rw [ih]
    · simp [h]
    · simp [h]

namespace Space

theorem length_of_uniform {s : Space α} {x : Point α} {g : Generator}
    (h : (s.uniform g).1 = some x) : x.length = s.dimension :=
  length_of_uniformCoordinates h

@[simp]
theorem length_clamp (s : Space α) (x : Point α) :
    (s.clamp x).length = min s.dimension x.length := by
  simp [clamp, dimension]

@[simp]
theorem length_latinHypercube (s : Space α) (n : Nat) (g : Generator) :
    (s.latinHypercube n g).1.length = n := by
  rw [latinHypercube, length_extendStratified]
  · simp
  · simp

end Space

end DelayTuning
