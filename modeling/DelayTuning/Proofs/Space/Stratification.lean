import DelayTuning.Proofs.Space.Exact

/-!
# The strata of a Latin hypercube

In every coordinate the points of a Latin hypercube have the strata in some order, one stratum for each
point, and a random offset in it. The order is shuffled anew from parameter to parameter, while the
coordinates that the points have already stay as they are. This holds for any scalars. In exact arithmetic
a stratum together with an offset below one is a place in this stratum and in no other, so each stratum has
exactly one point, and no point lies outside the bounds.

## Main definitions

- `Parameter.stratified`: the coordinate in a stratum at an offset
- `Parameter.InStratum`: the numbers of a stratum
- `Space.IsStratified`: points whose coordinates have the strata in some order

## Main statements

- `exists_append_of_extendStratified`, `exists_column_extendStratified`: what the parameters add to the
  points
- `exists_perm_of_perm_range`: the order of the strata as a permutation
- `Parameter.inStratum_stratified_iff`: the stratum that a coordinate lies in
- `Space.isStratified_latinHypercube`, `Space.latinHypercube_strata`: the points of a Latin hypercube
-/

namespace DelayTuning

section

variable {α : Type} [Scalar α]

/-! ### Columns -/

/-- The coordinate in a stratum out of `n`, at an offset from the start of the stratum. -/
def Parameter.stratified (p : Parameter α) (n stratum : ℕ) (offset : α) : α :=
  p.lower + Scalar.minNum (((stratum : α) + offset) / (n : α)) 1.0 * p.width

/-- Every coordinate of a column has its stratum and an offset of its own. -/
theorem exists_offsets_stratifiedCoordinates (p : Parameter α) (n : ℕ) (strata : List ℕ)
    (g : Generator) :
    ∃ offsets : List α, offsets.length = strata.length ∧
      (∀ r ∈ offsets, ∃ g' : Generator, r = g'.unit.1) ∧
      (stratifiedCoordinates p n strata g).1 = List.zipWith (p.stratified n) strata offsets := by
  induction strata generalizing g with
  | nil => exact ⟨[], rfl, by simp, rfl⟩
  | cons stratum rest ih =>
    obtain ⟨offsets, hlength, hdraws, hcolumn⟩ := ih (g.unit (α := α)).2
    refine ⟨g.unit.1 :: offsets, by simp [hlength], ?_, ?_⟩
    · exact List.forall_mem_cons.mpr ⟨⟨g, rfl⟩, hdraws⟩
    · rw [stratifiedCoordinates, List.zipWith_cons_cons, ← hcolumn]
      rfl

/-- Parameters add coordinates to the points and change none. -/
theorem exists_append_of_extendStratified {n : ℕ} {parameters : List (Parameter α)} {strata : List ℕ}
    {points : List (Point α)} {g : Generator} {i : ℕ} {x : Point α}
    (h : (extendStratified n parameters strata points g).1[i]? = some x) :
    ∃ y tail, points[i]? = some y ∧ x = y ++ tail := by
  induction parameters generalizing strata points g with
  | nil => exact ⟨x, [], h, (List.append_nil x).symm⟩
  | cons p rest ih =>
    rw [extendStratified] at h
    obtain ⟨y, tail, hy, rfl⟩ := ih h
    obtain ⟨z, c, hz, -, rfl⟩ := List.getElem?_zipWith_eq_some.mp hy
    exact ⟨z, c :: tail, hz, by simp⟩

/-- What a parameter adds is a column for some order of the strata. -/
theorem exists_column_extendStratified {n : ℕ} {parameters : List (Parameter α)} {strata : List ℕ}
    {points : List (Point α)} {d : ℕ} (hd : ∀ x ∈ points, x.length = d) (g : Generator) {j : ℕ}
    {p : Parameter α} (hp : parameters[j]? = some p) :
    ∃ (order : List ℕ) (g' : Generator), order.Perm strata ∧ ∀ (i : ℕ) (x : Point α),
      (extendStratified n parameters strata points g).1[i]? = some x →
        x[d + j]? = (stratifiedCoordinates p n order g').1[i]? := by
  induction parameters generalizing strata points d g j with
  | nil => cases hp
  | cons q rest ih =>
    have hshuffle := Generator.shuffle_perm strata g
    simp only [extendStratified]
    cases j with
    | zero =>
      obtain rfl : q = p := Option.some.inj hp
      refine ⟨_, (g.shuffle strata).2, hshuffle, ?_⟩
      intro i x hx
      obtain ⟨y, tail, hy, rfl⟩ := exists_append_of_extendStratified hx
      obtain ⟨z, c, hz, hc, rfl⟩ := List.getElem?_zipWith_eq_some.mp hy
      have hlength : z.length = d := hd z (List.mem_of_getElem? hz)
      rw [hc, Nat.add_zero, List.append_assoc, List.getElem?_append_right hlength.le, hlength,
        Nat.sub_self]
      rfl
    | succ j =>
      have hd' : ∀ x ∈ List.zipWith (fun x c => x ++ [c]) points
          (stratifiedCoordinates q n (g.shuffle strata).1 (g.shuffle strata).2).1,
          x.length = d + 1 := by
        intro x hx
        obtain ⟨i, hi⟩ := List.mem_iff_getElem?.mp hx
        obtain ⟨z, c, hz, -, rfl⟩ := List.getElem?_zipWith_eq_some.mp hi
        rw [List.length_append, hd z (List.mem_of_getElem? hz), List.length_singleton]
      obtain ⟨order, g', horder, hcolumn⟩ := ih hd' _ hp
      refine ⟨order, g', horder.trans hshuffle, ?_⟩
      intro i x hx
      rw [← hcolumn i x hx, Nat.add_right_comm, Nat.add_assoc]

/-- A list in which the numbers below `n` stand in some order is a permutation of these numbers. -/
theorem exists_perm_of_perm_range {order : List ℕ} {n : ℕ} (h : order.Perm (List.range n)) :
    ∃ σ : Equiv.Perm (Fin n), ∀ i : Fin n, order[(i : ℕ)]? = some (σ i : ℕ) := by
  have hlength : order.length = n := by simpa using h.length_eq
  have hlt : ∀ i : Fin n, order[(i : ℕ)] < n := fun i =>
    List.mem_range.mp (h.mem_iff.mp (List.getElem_mem _))
  have hnodup : order.Nodup := h.nodup_iff.mpr List.nodup_range
  have hinjective : Function.Injective fun i : Fin n => (⟨order[(i : ℕ)], hlt i⟩ : Fin n) := by
    intro a b hab
    exact Fin.ext (hnodup.getElem_inj_iff.mp (congrArg Fin.val hab))
  refine ⟨Equiv.ofBijective _ (Finite.injective_iff_bijective.mp hinjective), ?_⟩
  intro i
  exact List.getElem?_eq_getElem (hlength.symm ▸ i.isLt)

/-! ### Whole points -/

/-- As many points as wanted with a coordinate for each parameter. In every coordinate each point has a
    stratum of its own, according to a permutation, and an offset that is drawn from the unit interval. -/
structure Space.IsStratified (s : Space α) (n : ℕ) (points : List (Point α)) : Prop where
  count : points.length = n
  length_eq : ∀ x ∈ points, x.length = s.dimension
  coordinate : ∀ (j : ℕ) (p : Parameter α), s.parameters[j]? = some p →
    ∃ (order : Equiv.Perm (Fin n)) (offset : Fin n → α),
      (∀ i, (∃ g : Generator, offset i = g.unit.1) ∧ 0.0 ≤ offset i ∧ offset i < 1.0) ∧
      ∀ (i : Fin n) (x : Point α), points[(i : ℕ)]? = some x →
        x[j]? = some (p.stratified n (order i) (offset i))

/-- Whatever the scalars do, a Latin hypercube has the strata in some order, as long as random fractions
    lie in the unit interval. -/
theorem Space.isStratified_latinHypercube
    (hunit : ∀ g : Generator, 0.0 ≤ (g.unit.1 : α) ∧ (g.unit.1 : α) < 1.0) (s : Space α) (n : ℕ)
    (g : Generator) : s.IsStratified n (s.latinHypercube n g).1 where
  count := s.length_latinHypercube n g
  length_eq := length_of_mem_latinHypercube n g
  coordinate := by
    intro j p hp
    have hstart : ∀ x ∈ List.replicate n ([] : Point α), x.length = 0 := fun x hx =>
      congrArg List.length (List.eq_of_mem_replicate hx)
    obtain ⟨order, g', horder, hcolumn⟩ := exists_column_extendStratified hstart g hp
    obtain ⟨offsets, hlength, hdraws, hstratified⟩ := exists_offsets_stratifiedCoordinates p n order g'
    obtain ⟨σ, hσ⟩ := exists_perm_of_perm_range horder
    have hcount : offsets.length = n := by rw [hlength, horder.length_eq, List.length_range]
    have hoffset : ∀ i : Fin n, offsets[(i : ℕ)]? = some (offsets.getD i 0.0) := by
      intro i
      have hi : (i : ℕ) < offsets.length := hcount.symm ▸ i.isLt
      rw [List.getD_eq_getElem _ _ hi, List.getElem?_eq_getElem hi]
    refine ⟨σ, fun i => offsets.getD i 0.0, ?_, ?_⟩
    · intro i
      obtain ⟨g'', hg''⟩ := hdraws _ (List.mem_of_getElem? (hoffset i))
      have hbounds := hunit g''
      rw [← hg''] at hbounds
      exact ⟨⟨g'', hg''⟩, hbounds⟩
    · intro i x hx
      have hx' := hcolumn i x hx
      rw [Nat.zero_add, hstratified, List.getElem?_zipWith, hσ i, hoffset i] at hx'
      exact hx'

end

/-! ### Random fractions -/

theorem Generator.unit_bounds_double (g : Generator) :
    (0.0 : Double) ≤ g.unit.1 ∧ (g.unit.1 : Double) < 1.0 := by
  obtain ⟨hfinite, h0, h1⟩ := fraction53_bounds g
  have hlower : (0.0 : Float) ≤ (g.unit.1 : Double).toFloat := by
    rw [g.toFloat_unit, le_iff_exactValue_le (by decide) hfinite, exactValue_zero]
    exact h0
  have hupper : (g.unit.1 : Double).toFloat < (1.0 : Float) := by
    rw [g.toFloat_unit, lt_iff_exactValue_lt hfinite (by decide), exactValue_one]
    exact h1
  exact ⟨hlower, hupper⟩

variable {K : Type} [Field K] [LinearOrder K] [IsStrictOrderedRing K]

theorem Generator.unit_bounds_exact (g : Generator) :
    (0.0 : Exact K) ≤ g.unit.1 ∧ (g.unit.1 : Exact K) < 1.0 := by
  have hvalue : (g.unit.1 : Exact K).value = g.fraction53.1 / (2 ^ 53 : ℕ) := rfl
  have hlt : (g.fraction53.1 : K) < (2 ^ 53 : ℕ) := Nat.cast_lt.mpr g.fraction53_lt
  have hpos : (0 : K) < (2 ^ 53 : ℕ) := Nat.cast_pos.mpr (Nat.two_pow_pos 53)
  rw [Exact.le_iff, Exact.lt_iff, hvalue, Exact.value_zero, Exact.value_one, div_lt_one hpos]
  exact ⟨div_nonneg (Nat.cast_nonneg _) hpos.le, hlt⟩

/-! ### Strata -/

namespace Parameter

variable {p : Parameter (Exact K)} {n k stratum : ℕ} {offset : Exact K}

/-- The numbers of a stratum, when the way from the lower to the upper bound is divided into `n` equal
    parts. -/
def InStratum (p : Parameter (Exact K)) (n k : ℕ) (c : Exact K) : Prop :=
  p.lower.value + k / n * (p.upper.value - p.lower.value) ≤ c.value ∧
    c.value < p.lower.value + (k + 1) / n * (p.upper.value - p.lower.value)

/-- A stratum and an offset below one make a place below one. -/
theorem place_lt_one (hstratum : stratum < n) (h1 : offset < 1.0) :
    ((stratum : K) + offset.value) / n < 1 := by
  have hn : (0 : K) < n := Nat.cast_pos.mpr (Nat.zero_lt_of_lt hstratum)
  have hle : (stratum : K) + 1 ≤ n := by exact_mod_cast hstratum
  rw [Exact.lt_iff, Exact.value_one] at h1
  rw [div_lt_one hn]
  linarith

/-- So the least of the place and one is the place. -/
theorem value_stratified (hstratum : stratum < n) (h1 : offset < 1.0) :
    (p.stratified n stratum offset).value =
      p.lower.value + (stratum + offset.value) / n * (p.upper.value - p.lower.value) := by
  have hplace := (place_lt_one (K := K) hstratum h1).le
  rw [stratified, Exact.value_add, Exact.value_mul, Exact.value_minNum, Exact.value_div,
    Exact.value_add, Exact.value_natCast, Exact.value_natCast, Exact.value_one, min_eq_left hplace]
  rfl

theorem contains_stratified (hp : p.Bounded) (hstratum : stratum < n) (h0 : 0.0 ≤ offset)
    (h1 : offset < 1.0) : p.contains (p.stratified n stratum offset) = true := by
  have hoffset : 0 ≤ offset.value := by rwa [Exact.le_iff, Exact.value_zero] at h0
  have hplace : 0 ≤ ((stratum : K) + offset.value) / n := by positivity
  have heq : p.stratified n stratum offset = p.atPlace ⟨(stratum + offset.value) / n⟩ :=
    Exact.ext ((value_stratified hstratum h1).trans (value_atPlace _).symm)
  rw [heq]
  exact contains_atPlace hp hplace (place_lt_one hstratum h1).le

/-- A coordinate lies in the stratum that it was made for and in no other. -/
theorem inStratum_stratified_iff (hp : 0.0 < p.width) (hstratum : stratum < n) (h0 : 0.0 ≤ offset)
    (h1 : offset < 1.0) : p.InStratum n k (p.stratified n stratum offset) ↔ stratum = k := by
  have hwidth : 0 < p.upper.value - p.lower.value := sub_pos.mpr (width_pos_iff.mp hp)
  have hn : (0 : K) < n := Nat.cast_pos.mpr (Nat.zero_lt_of_lt hstratum)
  rw [Exact.le_iff, Exact.value_zero] at h0
  have h1' : offset.value < 1 := by rwa [Exact.lt_iff, Exact.value_one] at h1
  rw [InStratum, value_stratified hstratum h1, add_le_add_iff_left, add_lt_add_iff_left,
    mul_le_mul_iff_of_pos_right hwidth, mul_lt_mul_iff_of_pos_right hwidth,
    div_le_div_iff_of_pos_right hn, div_lt_div_iff_of_pos_right hn]
  constructor
  · rintro ⟨hlower, hupper⟩
    have hle : (k : K) < stratum + 1 := by linarith
    have hge : (stratum : K) < k + 1 := by linarith
    norm_cast at hle hge
    omega
  · rintro rfl
    constructor <;> linarith

end Parameter

/-- A Latin hypercube has as many points as wanted, each with a coordinate for each parameter, and in every
    coordinate the points have the strata in some order, each at an offset drawn from the unit interval.
    In exact arithmetic all points lie within the bounds, and where a parameter has a width each of its
    strata has exactly one point. -/
theorem Space.latinHypercube_strata (n : ℕ) (g : Generator) :
    (∀ s : Space Double, s.IsStratified n (s.latinHypercube n g).1) ∧
    ∀ s : Space (Exact K), s.IsStratified n (s.latinHypercube n g).1 ∧
      (∀ x ∈ (s.latinHypercube n g).1, s.validate x = true) ∧
      ∀ (j : ℕ) (p : Parameter (Exact K)), s.parameters[j]? = some p → 0.0 < p.width →
        ∀ k < n, ∃! i : ℕ, ∃ x c, (s.latinHypercube n g).1[i]? = some x ∧ x[j]? = some c ∧
          p.InStratum n k c := by
  refine ⟨fun s => s.isStratified_latinHypercube Generator.unit_bounds_double n g, ?_⟩
  intro s
  have hstratified := s.isStratified_latinHypercube Generator.unit_bounds_exact n g
  generalize (s.latinHypercube n g).1 = points at hstratified ⊢
  have hcount := hstratified.count
  refine ⟨hstratified, ?_, ?_⟩
  · intro x hx
    obtain ⟨i, hi⟩ := List.mem_iff_getElem?.mp hx
    obtain ⟨hlt, -⟩ := List.getElem?_eq_some_iff.mp hi
    refine Space.validate_iff_getElem?.mpr ⟨hstratified.length_eq x hx, ?_⟩
    intro j p c hp hc
    obtain ⟨order, offset, hoffset, hcoordinate⟩ := hstratified.coordinate j p hp
    have hx' := hcoordinate ⟨i, hcount ▸ hlt⟩ x hi
    obtain rfl := Option.some.inj (hc.symm.trans hx')
    obtain ⟨-, h0, h1⟩ := hoffset ⟨i, hcount ▸ hlt⟩
    exact Parameter.contains_stratified (s.wellFormed.bounded p (List.mem_of_getElem? hp)) (order _).isLt
      h0 h1
  · intro j p hp hwidth k hk
    obtain ⟨order, offset, hoffset, hcoordinate⟩ := hstratified.coordinate j p hp
    have hin : ∀ i : Fin n, p.InStratum n k (p.stratified n (order i) (offset i)) ↔
        (order i : ℕ) = k := fun i =>
      Parameter.inStratum_stratified_iff hwidth (order i).isLt (hoffset i).2.1 (hoffset i).2.2
    refine ⟨order.symm ⟨k, hk⟩, ?_, ?_⟩
    · have hlt : (order.symm ⟨k, hk⟩ : ℕ) < points.length := hcount.symm ▸ (order.symm ⟨k, hk⟩).isLt
      have hx := List.getElem?_eq_getElem hlt
      refine ⟨_, _, hx, hcoordinate _ _ hx, (hin _).mpr ?_⟩
      rw [Equiv.apply_symm_apply]
    · rintro i ⟨x, c, hx, hc, hstratum⟩
      obtain ⟨hlt, -⟩ := List.getElem?_eq_some_iff.mp hx
      have hx' := hcoordinate ⟨i, hcount ▸ hlt⟩ x hx
      obtain rfl := Option.some.inj (hc.symm.trans hx')
      have horder : order ⟨i, hcount ▸ hlt⟩ = ⟨k, hk⟩ := Fin.ext ((hin _).mp hstratum)
      rw [← horder, Equiv.symm_apply_apply]

/-- Of seven points one has its slope in the third stratum. -/
theorem Space.mixedSpace_strata :
    ∃! i : ℕ, ∃ x c, (mixedSpace.latinHypercube 7 (Generator.ofSeed 3)).1[i]? = some x ∧ x[0]? = some c ∧
      Parameter.InStratum ⟨"slope", ⟨1⟩, ⟨3⟩⟩ 7 2 c := by
  obtain ⟨-, hexact⟩ := latinHypercube_strata (K := ℚ) 7 (Generator.ofSeed 3)
  obtain ⟨-, -, hstrata⟩ := hexact mixedSpace
  exact hstrata 0 ⟨"slope", ⟨1⟩, ⟨3⟩⟩ rfl (by decide +kernel) 2 (by decide)

end DelayTuning
