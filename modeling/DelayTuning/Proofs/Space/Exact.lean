import DelayTuning.Proofs.Exact
import DelayTuning.Proofs.Space.Clamp

/-!
# Spaces of exact numbers and the unit cube

Without rounding a space and the unit cube are carried into each other by the map that goes one way and
the map that goes the other. A parameter without width is the exception: its only value is sent to the
middle of the unit interval, and every place in the interval is sent back to this value.

## Main definitions

- `Parameter.place`, `Parameter.atPlace`: the place of a number between the bounds, and the number at a
  place
- `Point.InUnitCube`: a point of the unit cube of a dimension

## Main statements

- `Parameter.bounded_iff_le`, `Parameter.contains_iff_le`: bounds and what lies between them
- `Parameter.place_mem_unit`, `Parameter.contains_atPlace`: each map ends where the other one starts
- `Parameter.atPlace_place`, `Parameter.place_atPlace`: what is left when one map follows the other
- `Space.unitCube_maps`: the same for whole points
-/

namespace DelayTuning

variable {K : Type} [Field K] [LinearOrder K]

namespace Parameter

/-! ### Bounds -/

section Bounds

variable {p : Parameter (Exact K)}

theorem bounded_iff_le : p.Bounded ↔ p.lower.value ≤ p.upper.value := by
  have hfinite : p.hasFiniteBounds = true := rfl
  rw [Bounded, Exact.lt_iff, not_lt]
  exact and_iff_right hfinite

theorem contains_iff_le {c : Exact K} :
    p.contains c = true ↔ p.lower.value ≤ c.value ∧ c.value ≤ p.upper.value := by
  rw [contains, Bool.and_eq_true, decide_eq_true_iff, decide_eq_true_iff]
  rfl

@[simp]
theorem value_width (p : Parameter (Exact K)) : p.width.value = p.upper.value - p.lower.value := rfl

end Bounds

/-! ### Places -/

/-- The place of a number between the bounds, from zero at the lower one to one at the upper one. A
    parameter without width has only the middle. -/
def place {α : Type} [Scalar α] (p : Parameter α) (c : α) : α :=
  if p.width == 0.0 then 0.5 else (c - p.lower) / p.width

/-- The number at a place between the bounds. -/
def atPlace {α : Type} [Scalar α] (p : Parameter α) (t : α) : α :=
  p.lower + t * p.width

section Places

variable [IsStrictOrderedRing K] {p : Parameter (Exact K)}

/-- The width is zero where the bounds do not differ. -/
theorem width_beq_zero_iff : (p.width == 0.0) = true ↔ p.lower.value = p.upper.value := by
  rw [Exact.beq_iff, Exact.ext_iff, value_width, Exact.value_zero, sub_eq_zero]
  exact eq_comm

theorem width_pos_iff : 0.0 < p.width ↔ p.lower.value < p.upper.value := by
  rw [Exact.lt_iff, value_width, Exact.value_zero, sub_pos]

theorem place_of_eq (h : p.lower.value = p.upper.value) (c : Exact K) : p.place c = 0.5 :=
  if_pos (width_beq_zero_iff.mpr h)

theorem value_place (h : p.lower.value ≠ p.upper.value) (c : Exact K) :
    (p.place c).value = (c.value - p.lower.value) / (p.upper.value - p.lower.value) := by
  rw [place, if_neg (mt width_beq_zero_iff.mp h)]
  rfl

omit [IsStrictOrderedRing K] in
theorem value_atPlace (t : Exact K) :
    (p.atPlace t).value = p.lower.value + t.value * (p.upper.value - p.lower.value) := rfl

/-- Whatever lies within bounds has its place in the unit interval. -/
theorem place_mem_unit {c : Exact K} (hc : p.contains c = true) :
    0 ≤ (p.place c).value ∧ (p.place c).value ≤ 1 := by
  obtain ⟨hlower, hupper⟩ := contains_iff_le.mp hc
  by_cases h : p.lower.value = p.upper.value
  · rw [place_of_eq h, Exact.value_ofScientific]
    norm_num
  · have hwidth : 0 < p.upper.value - p.lower.value :=
      sub_pos.mpr (lt_of_le_of_ne (hlower.trans hupper) h)
    rw [value_place h, div_le_one hwidth]
    exact ⟨div_nonneg (sub_nonneg.mpr hlower) hwidth.le, sub_le_sub_right hupper _⟩

/-- The number at the place of a number within bounds is this number. -/
theorem atPlace_place {c : Exact K} (hc : p.contains c = true) : p.atPlace (p.place c) = c := by
  obtain ⟨hlower, hupper⟩ := contains_iff_le.mp hc
  apply Exact.ext
  rw [value_atPlace]
  by_cases h : p.lower.value = p.upper.value
  · rw [h, sub_self, mul_zero, add_zero]
    exact le_antisymm (h ▸ hlower) hupper
  · have hwidth : p.upper.value - p.lower.value ≠ 0 := sub_ne_zero.mpr (Ne.symm h)
    rw [value_place h, div_mul_cancel₀ _ hwidth, add_sub_cancel]

/-- At every place of the unit interval is a number within bounds. -/
theorem contains_atPlace (hp : p.Bounded) {t : Exact K} (ht0 : 0 ≤ t.value) (ht1 : t.value ≤ 1) :
    p.contains (p.atPlace t) = true := by
  have hwidth : 0 ≤ p.upper.value - p.lower.value := sub_nonneg.mpr (bounded_iff_le.mp hp)
  rw [contains_iff_le, value_atPlace]
  constructor
  · exact le_add_of_nonneg_right (mul_nonneg ht0 hwidth)
  · calc p.lower.value + t.value * (p.upper.value - p.lower.value)
      _ ≤ p.lower.value + 1 * (p.upper.value - p.lower.value) := by gcongr
      _ = p.upper.value := by rw [one_mul, add_sub_cancel]

/-- The place of the number at a place is this place, if there is a width to tell places apart. -/
theorem place_atPlace (hp : p.Bounded) (t : Exact K) :
    p.place (p.atPlace t) = if 0.0 < p.width then t else 0.5 := by
  obtain h | h := (bounded_iff_le.mp hp).eq_or_lt
  · have hnone : ¬ 0.0 < p.width := fun hpos => (width_pos_iff.mp hpos).ne h
    rw [place_of_eq h, if_neg hnone]
  · have hwidth : p.upper.value - p.lower.value ≠ 0 := sub_ne_zero.mpr h.ne'
    rw [if_pos (width_pos_iff.mpr h)]
    apply Exact.ext
    rw [value_place h.ne, value_atPlace, add_sub_cancel_left, mul_div_cancel_right₀ _ hwidth]

end Places

end Parameter

/-! ### Whole points -/

/-- A point of the unit cube: as many coordinates as the dimension, all of the unit interval. -/
def Point.InUnitCube (dimension : ℕ) (u : Point (Exact K)) : Prop :=
  u.length = dimension ∧ ∀ t ∈ u, 0 ≤ t.value ∧ t.value ≤ 1

namespace Space

theorem toUnit_eq {α : Type} [Scalar α] (s : Space α) (x : Point α) :
    s.toUnit x = List.zipWith Parameter.place s.parameters x := rfl

theorem ofUnit_eq {α : Type} [Scalar α] (s : Space α) (u : Point α) :
    s.ofUnit u = List.zipWith Parameter.atPlace s.parameters u := rfl

variable [IsStrictOrderedRing K] {s : Space (Exact K)} {x u : Point (Exact K)}

theorem inUnitCube_toUnit (h : s.validate x = true) : (s.toUnit x).InUnitCube s.dimension := by
  obtain ⟨hlength, hcontains⟩ := validate_iff_getElem?.mp h
  constructor
  · rw [toUnit_eq, List.length_zipWith, hlength, dimension, Nat.min_self]
  · intro t ht
    obtain ⟨i, hi⟩ := List.mem_iff_getElem?.mp ht
    obtain ⟨p, c, hp, hc, rfl⟩ := List.getElem?_zipWith_eq_some.mp hi
    exact Parameter.place_mem_unit (hcontains i p c hp hc)

theorem ofUnit_toUnit (h : s.validate x = true) : s.ofUnit (s.toUnit x) = x := by
  rw [validate_iff] at h
  rw [ofUnit_eq, toUnit_eq]
  generalize s.parameters = parameters at h ⊢
  induction h with
  | nil => rfl
  | @cons p c _ _ hc _ ih =>
    rw [List.zipWith_cons_cons, List.zipWith_cons_cons, Parameter.atPlace_place hc, ih]

theorem validate_ofUnit (h : u.InUnitCube s.dimension) : s.validate (s.ofUnit u) = true := by
  obtain ⟨hlength, hunit⟩ := h
  refine validate_iff_getElem?.mpr ⟨?_, ?_⟩
  · rw [ofUnit_eq, List.length_zipWith, hlength, dimension, Nat.min_self]
  · intro i p c hp hc
    obtain ⟨q, t, hq, ht, rfl⟩ := List.getElem?_zipWith_eq_some.mp hc
    obtain rfl : p = q := Option.some.inj (hp.symm.trans hq)
    obtain ⟨ht0, ht1⟩ := hunit t (List.mem_of_getElem? ht)
    exact Parameter.contains_atPlace (s.wellFormed.bounded p (List.mem_of_getElem? hp)) ht0 ht1

theorem toUnit_ofUnit (s : Space (Exact K)) (u : Point (Exact K)) :
    s.toUnit (s.ofUnit u) =
      List.zipWith (fun p t => if 0.0 < p.width then t else 0.5) s.parameters u := by
  have hbounded := s.wellFormed.bounded
  rw [ofUnit_eq, toUnit_eq]
  generalize s.parameters = parameters at hbounded ⊢
  induction parameters generalizing u with
  | nil => rfl
  | cons p rest ih =>
    cases u with
    | nil => rfl
    | cons t u =>
      rw [List.zipWith_cons_cons, List.zipWith_cons_cons, List.zipWith_cons_cons,
        Parameter.place_atPlace (hbounded p List.mem_cons_self),
        ih u fun q hq => hbounded q (List.mem_cons_of_mem p hq)]

/-- Without rounding every point of a space has its place in the unit cube and is the point at this place,
    and at every place of the unit cube there is a point of the space. The place of the point at a place is
    the same in every coordinate whose parameter has a width, and the middle in the others. -/
theorem unitCube_maps (s : Space (Exact K)) :
    (∀ x, s.validate x = true →
      (s.toUnit x).InUnitCube s.dimension ∧ s.ofUnit (s.toUnit x) = x) ∧
    (∀ u : Point (Exact K), u.InUnitCube s.dimension → s.validate (s.ofUnit u) = true) ∧
    ∀ u : Point (Exact K), u.length = s.dimension →
      s.toUnit (s.ofUnit u) =
        List.zipWith (fun p t => if 0.0 < p.width then t else 0.5) s.parameters u :=
  ⟨fun _ h => ⟨inUnitCube_toUnit h, ofUnit_toUnit h⟩, fun _ h => validate_ofUnit h,
    fun u _ => toUnit_ofUnit s u⟩

/-- A parameter with a width and one without. -/
def mixedSpace : Space (Exact ℚ) where
  parameters := [⟨"slope", ⟨1⟩, ⟨3⟩⟩, ⟨"offset", ⟨5⟩, ⟨5⟩⟩]
  wellFormed := (fault?_eq_none_iff _).mp (by decide +kernel)

/-- The maps at a point on the lower bound of a space that has no width in one direction. -/
theorem mixedSpace_unitCube_maps :
    mixedSpace.validate [⟨1⟩, ⟨5⟩] = true ∧ mixedSpace.ofUnit (mixedSpace.toUnit [⟨1⟩, ⟨5⟩]) = [⟨1⟩, ⟨5⟩] ∧
    Point.InUnitCube 2 [(⟨1⟩ : Exact ℚ), ⟨0⟩] ∧ mixedSpace.validate (mixedSpace.ofUnit [⟨1⟩, ⟨0⟩]) = true ∧
    mixedSpace.toUnit (mixedSpace.ofUnit [⟨7⟩, ⟨-1⟩]) = [⟨7⟩, 0.5] := by
  obtain ⟨hpoint, hcube, hplace⟩ := unitCube_maps mixedSpace
  have hvalid : mixedSpace.validate [⟨1⟩, ⟨5⟩] = true := by decide +kernel
  have hunit : Point.InUnitCube 2 [(⟨1⟩ : Exact ℚ), ⟨0⟩] := ⟨rfl, by simp⟩
  have hends := hplace [⟨7⟩, ⟨-1⟩] rfl
  refine ⟨hvalid, (hpoint _ hvalid).2, hunit, hcube _ hunit, hends.trans ?_⟩
  decide +kernel

end Space

end DelayTuning
