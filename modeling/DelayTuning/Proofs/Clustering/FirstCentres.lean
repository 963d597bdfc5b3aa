import DelayTuning.Proofs.Clustering.Farthest

/-!
# The first centres

Each centre after the first stands at the first position of a point that is farthest from the centres before it.
The distances from the nearest of these centres are renewed with every centre, and they are what they would be if
they were computed anew. A point that serves as a centre is at the distance zero, so a farthest point at another
distance is a new one; if all points coincide with centres the first position that is not used is taken, and there
is one as long as there are fewer centres than points. So no position is used twice, whatever points are the same.

## Main definitions

- `IsReach`: the squared distance of a point from the nearest of some centres
- `IsNextCentre`: the position that is next
- `TracksReach`: the distances that are kept from one centre to the next

## Main statements

- `TracksReach.append`: one more centre
- `TracksReach.isNextCentre`: the position that is chosen
- `startPositions_farthest`: the positions of the first centres
-/

namespace DelayTuning

/-- The squared distances of a point from the points at some positions. -/
def distancesAt (points : List (Point Float)) (positions : List ℕ) (x : Point Float) : Set Float :=
  {d | ∃ i ∈ positions, ∃ y, points[i]? = some y ∧ d = Point.squaredDistance x y}

/-- The squared distance of the point at a position from the nearest of the points at the chosen positions. -/
def IsReach (points : List (Point Float)) (chosen : List ℕ) (i : ℕ) (d : Float) : Prop :=
  ∃ x, points[i]? = some x ∧ IsLeast (distancesAt points chosen x) d

/-- The position of the next centre: the first one of a point that is farthest from the chosen ones or, if all
points are at the distance zero, the first one that has not been chosen. -/
inductive IsNextCentre (points : List (Point Float)) (chosen : List ℕ) : ℕ → Prop
  | farthest {i : ℕ} {d : Float} (hreach : IsReach points chosen i d) (hpos : 0.0 < d)
    (hmax : ∀ j e, IsReach points chosen j e → e ≤ d)
    (hfirst : ∀ j < i, ∀ e, IsReach points chosen j e → e < d) : IsNextCentre points chosen i
  | unused {i : ℕ} (hzero : ∀ j e, IsReach points chosen j e → (e == 0.0) = true) (hlt : i < points.length)
    (hnew : i ∉ chosen) (hfirst : ∀ j < i, j ∈ chosen) : IsNextCentre points chosen i

variable {points : List (Point Float)} {chosen : List ℕ}

/-! ### The distances from the nearest centre -/

section Reach

variable (hfinite : ∀ x ∈ points, FinitePoint x)

include hfinite

theorem nonneg_of_mem_distancesAt {x : Point Float} (hx : x ∈ points) {d : Float}
    (hd : d ∈ distancesAt points chosen x) : 0.0 ≤ d := by
  obtain ⟨i, -, y, hy, rfl⟩ := hd
  exact squaredDistance_nonneg (hfinite x hx) (hfinite y (List.mem_of_getElem? hy)).numberPoint

theorem IsReach.nonneg {i : ℕ} {d : Float} (h : IsReach points chosen i d) : 0.0 ≤ d := by
  obtain ⟨x, hx, hleast⟩ := h
  exact nonneg_of_mem_distancesAt hfinite (List.mem_of_getElem? hx) hleast.1

/-- A point that has been chosen is at the distance zero. -/
theorem IsReach.le_zero {i : ℕ} {d : Float} (h : IsReach points chosen i d) (hi : i ∈ chosen) : d ≤ 0.0 := by
  obtain ⟨x, hx, hleast⟩ := h
  have hxmem := List.mem_of_getElem? hx
  have hself : Point.squaredDistance x x ∈ distancesAt points chosen x := ⟨i, hi, x, hx, rfl⟩
  exact le_trans_of_nonneg (nonneg_of_mem_distancesAt hfinite hxmem hleast.1)
    (nonneg_of_mem_distancesAt hfinite hxmem hself) zero_le_zero (hleast.2 hself)
    (squaredDistance_self_le (hfinite x hxmem))

/-- The least distance from one more centre is the lesser of two. -/
theorem isLeast_minNum {x y : Point Float} (hx : x ∈ points) {pick : ℕ} (hy : points[pick]? = some y) {d : Float}
    (h : IsLeast (distancesAt points chosen x) d) :
    IsLeast (distancesAt points (chosen ++ [pick]) x) (Scalar.minNum d (Point.squaredDistance x y)) := by
  have hd := nonneg_of_mem_distancesAt hfinite hx h.1
  have he := squaredDistance_nonneg (hfinite x hx) (hfinite y (List.mem_of_getElem? hy)).numberPoint
  have hcases : ∀ e ∈ distancesAt points (chosen ++ [pick]) x,
      e ∈ distancesAt points chosen x ∨ e = Point.squaredDistance x y := by
    rintro e ⟨i, hi, z, hz, rfl⟩
    obtain hi | hi := List.mem_append.mp hi
    · exact Or.inl ⟨i, hi, z, hz, rfl⟩
    · obtain rfl := List.mem_singleton.mp hi
      rw [hy] at hz
      obtain rfl := Option.some.inj hz
      exact Or.inr rfl
  have hold : ∀ e ∈ distancesAt points chosen x, e ∈ distancesAt points (chosen ++ [pick]) x := by
    rintro e ⟨i, hi, hrest⟩
    exact ⟨i, List.mem_append_left _ hi, hrest⟩
  have hnew : Point.squaredDistance x y ∈ distancesAt points (chosen ++ [pick]) x :=
    ⟨pick, List.mem_append_right _ (List.mem_singleton.mpr rfl), y, hy, rfl⟩
  rw [Scalar.minNum, if_pos (beq_self_of_nonneg he)]
  split
  · next hlt =>
    refine ⟨hold d h.1, ?_⟩
    intro e hmem
    obtain hmem | rfl := hcases e hmem
    · exact h.2 hmem
    · exact le_of_lt_of_nonneg hd he hlt
  · next hge =>
    refine ⟨hnew, ?_⟩
    intro e hmem
    obtain hmem | rfl := hcases e hmem
    · exact le_trans_of_nonneg he hd (nonneg_of_mem_distancesAt hfinite hx hmem)
        (le_of_not_lt_of_nonneg hd he hge) (h.2 hmem)
    · exact le_self_of_nonneg he

end Reach

/-! ### The choice of a position -/

/-- A list of the squared distances of all points from the nearest chosen one. -/
structure TracksReach (points : List (Point Float)) (chosen : List ℕ) (nearest : List Float) : Prop where
  length_eq : nearest.length = points.length
  isReach : ∀ i d, nearest[i]? = some d → IsReach points chosen i d

namespace TracksReach

variable {nearest : List Float} (h : TracksReach points chosen nearest)

include h

theorem exists_getElem? {i : ℕ} (hi : i < points.length) : ∃ d, nearest[i]? = some d :=
  ⟨_, List.getElem?_eq_getElem (h.length_eq.symm ▸ hi)⟩

/-- Any computation of the distance of a point gives no more than what is kept. -/
theorem exists_le {j : ℕ} {e : Float} (hj : IsReach points chosen j e) :
    ∃ d, nearest[j]? = some d ∧ e ≤ d := by
  obtain ⟨x, hx, hleast⟩ := hj
  obtain ⟨d, hd⟩ := h.exists_getElem? (List.getElem?_eq_some_iff.mp hx).1
  obtain ⟨y, hy, hleast'⟩ := h.isReach j d hd
  rw [hx] at hy
  obtain rfl := Option.some.inj hy
  exact ⟨d, hd, hleast.2 hleast'.1⟩

variable (hfinite : ∀ x ∈ points, FinitePoint x)

include hfinite

theorem nonneg : ∀ d ∈ nearest, 0.0 ≤ d := by
  intro d hd
  obtain ⟨i, hi⟩ := List.mem_iff_getElem?.mp hd
  exact (h.isReach i d hi).nonneg hfinite

/-- The distances are renewed when a position is chosen. -/
theorem append {pick : ℕ} {y : Point Float} (hy : points[pick]? = some y) :
    TracksReach points (chosen ++ [pick])
      (List.zipWith (fun d x => Scalar.minNum d (Point.squaredDistance x y)) nearest points) where
  length_eq := by rw [List.length_zipWith, h.length_eq, Nat.min_self]
  isReach := by
    intro i e he
    obtain ⟨d, x, hd, hx, rfl⟩ := List.getElem?_zipWith_eq_some.mp he
    obtain ⟨x', hx', hleast⟩ := h.isReach i d hd
    rw [hx] at hx'
    obtain rfl := Option.some.inj hx'
    exact ⟨x, hx, isLeast_minNum hfinite (List.mem_of_getElem? hx) hy hleast⟩

omit hfinite in
/-- As long as there are fewer chosen positions than points one of them has not been chosen. -/
theorem exists_find? (henough : chosen.length < points.length) :
    ∃ i, ((List.range nearest.length).find? fun i => !chosen.contains i) = some i := by
  obtain ⟨i, hi, hnew⟩ := exists_lt_notMem henough
  have hsome : ((List.range nearest.length).find? fun i => !chosen.contains i).isSome := by
    rw [List.find?_isSome]
    exact ⟨i, List.mem_range.mpr (h.length_eq.symm ▸ hi), by simpa using hnew⟩
  exact Option.isSome_iff_exists.mp hsome

/-- The largest of the distances that are kept is that of the first point farthest from the chosen ones. -/
theorem farthest_of_largest? {pick : ℕ} {m : Float} (hlargest : largest? nearest = some (pick, m)) :
    IsReach points chosen pick m ∧ (∀ j e, IsReach points chosen j e → e ≤ m) ∧
      ∀ j < pick, ∀ e, IsReach points chosen j e → e < m := by
  have hsizes := h.nonneg hfinite
  obtain ⟨front, back, hsplit, rfl, hleads⟩ := leads_of_largest? hsizes hlargest
  have hreach := h.isReach front.length m (by simp [hsplit])
  have hm := hreach.nonneg hfinite
  have hmax : ∀ d ∈ nearest, d ≤ m := by
    rw [hsplit] at hsizes ⊢
    exact hleads.le_of_mem hsizes
  refine ⟨hreach, ?_, ?_⟩
  · intro j e he
    obtain ⟨d, hd, hed⟩ := h.exists_le he
    have hdmem := List.mem_of_getElem? hd
    exact le_trans_of_nonneg (he.nonneg hfinite) (hsizes d hdmem) hm hed (hmax d hdmem)
  · intro j hj e he
    obtain ⟨d, hd, hed⟩ := h.exists_le he
    have hd0 := hsizes d (List.mem_of_getElem? hd)
    rw [hsplit, List.getElem?_append_left hj] at hd
    exact lt_of_le_of_lt_of_nonneg (he.nonneg hfinite) hd0 hm hed
      (hleads.lt_of_mem_front d (List.mem_of_getElem? hd))

/-- The position that is chosen is the next one, and it is new. -/
theorem isNextCentre (henough : chosen.length < points.length) :
    IsNextCentre points chosen (nextPosition nearest chosen) ∧ nextPosition nearest chosen ∉ chosen := by
  rw [nextPosition]
  cases hlargest : largest? nearest with
  | none =>
    have hpos := Nat.zero_lt_of_lt henough
    rw [← h.length_eq] at hpos
    cases nearest with
    | nil => exact absurd hpos (Nat.lt_irrefl 0)
    | cons d rest => cases hlargest
  | some found =>
    obtain ⟨pick, m⟩ := found
    obtain ⟨hreach, hmax, hfirst⟩ := h.farthest_of_largest? hfinite hlargest
    have hm := hreach.nonneg hfinite
    simp only
    split
    · next hzero =>
      have hmzero := (beq_zero_iff_le hm).mp hzero
      obtain ⟨i, hi⟩ := h.exists_find? henough
      obtain ⟨hnew, hlt, hused⟩ := List.find?_range_eq_some.mp hi
      have hnotMem : i ∉ chosen := by simpa using hnew
      rw [hi, Option.getD_some]
      refine ⟨.unused ?_ ?_ hnotMem ?_, hnotMem⟩
      · intro j e he
        have he0 := he.nonneg hfinite
        exact (beq_zero_iff_le he0).mpr (le_trans_of_nonneg he0 hm zero_le_zero (hmax j e he) hmzero)
      · exact h.length_eq ▸ List.mem_range.mp hlt
      · intro j hj
        simpa using hused j hj
    · next hzero =>
      have hnotle : ¬ m ≤ 0.0 := fun hle => hzero ((beq_zero_iff_le hm).mpr hle)
      have hpos : 0.0 < m := by
        by_contra hnot
        exact hnotle (le_of_not_lt_of_nonneg zero_le_zero hm hnot)
      exact ⟨.farthest hreach hpos hmax hfirst, fun hmem => hnotle (hreach.le_zero hfinite hmem)⟩

end TracksReach

/-! ### All positions -/

/-- What holds when a position is chosen after some others: every point has a distance from the nearest of them,
the position is the next one, and a position that is not used is there to fall back on. -/
structure IsChoice (points : List (Point Float)) (chosen : List ℕ) (i : ℕ) : Prop where
  exists_reach : ∀ j < points.length, ∃ d, IsReach points chosen j d
  isNextCentre : IsNextCentre points chosen i
  exists_unused : ∃ j, ((List.range points.length).find? fun j => !chosen.contains j) = some j

section Positions

variable (hfinite : ∀ x ∈ points, FinitePoint x)

include hfinite

theorem TracksReach.isChoice {nearest : List Float} (h : TracksReach points chosen nearest)
    (henough : chosen.length < points.length) : IsChoice points chosen (nextPosition nearest chosen) where
  exists_reach j hj := (h.exists_getElem? hj).imp fun d hd => h.isReach j d hd
  isNextCentre := (h.isNextCentre hfinite henough).1
  exists_unused := h.length_eq ▸ h.exists_find? henough

/-- The first centre alone. -/
theorem tracksReach_singleton {first : ℕ} {y : Point Float} (hy : points[first]? = some y) :
    TracksReach points [first] (points.map fun x => Point.squaredDistance x y) where
  length_eq := List.length_map _
  isReach := by
    intro i d hd
    rw [List.getElem?_map] at hd
    obtain ⟨x, hx, rfl⟩ := Option.map_eq_some_iff.mp hd
    have hnonneg := squaredDistance_nonneg (hfinite x (List.mem_of_getElem? hx))
      (hfinite y (List.mem_of_getElem? hy)).numberPoint
    refine ⟨x, hx, ⟨first, List.mem_singleton.mpr rfl, y, hy, rfl⟩, ?_⟩
    rintro e ⟨j, hj, z, hz, rfl⟩
    obtain rfl := List.mem_singleton.mp hj
    rw [hy] at hz
    obtain rfl := Option.some.inj hz
    exact le_self_of_nonneg hnonneg

theorem exists_extendPositions {count : ℕ} {nearest : List Float} (h : TracksReach points chosen nearest)
    (hnodup : chosen.Nodup) (henough : chosen.length + count ≤ points.length) :
    ∃ later, extendPositions points count nearest chosen = chosen ++ later ∧ (chosen ++ later).Nodup ∧
      ∀ t i, later[t]? = some i → IsChoice points (chosen ++ later.take t) i := by
  induction count generalizing nearest chosen with
  | zero => exact ⟨[], (List.append_nil chosen).symm, by simpa using hnodup, by simp⟩
  | succ count ih =>
    have hchoice := h.isChoice hfinite (by omega)
    obtain ⟨-, hnew⟩ := h.isNextCentre hfinite (by omega)
    rw [extendPositions]
    generalize nextPosition nearest chosen = pick at hchoice hnew ⊢
    have hlt : pick < points.length := by
      cases hchoice.isNextCentre with
      | farthest hreach =>
        obtain ⟨x, hx, -⟩ := hreach
        exact (List.getElem?_eq_some_iff.mp hx).1
      | unused hzero hlt => exact hlt
    have hy : points[pick]? = some (points.getD pick []) := by
      rw [List.getElem?_eq_getElem hlt, List.getD_eq_getElem _ _ hlt]
    have hnext : (chosen ++ [pick]).Nodup := by
      rw [List.nodup_append]
      refine ⟨hnodup, List.nodup_singleton pick, ?_⟩
      rintro i hi j hj rfl
      exact hnew (List.mem_singleton.mp hj ▸ hi)
    have hcount : (chosen ++ [pick]).length + count ≤ points.length := by
      rw [List.length_append, List.length_singleton]
      omega
    obtain ⟨later, hlater, hdistinct, hchoices⟩ := ih (h.append hfinite hy) hnext hcount
    refine ⟨pick :: later, ?_, ?_, ?_⟩
    · rw [hlater, List.append_assoc, List.singleton_append]
    · rwa [List.append_cons]
    · intro t i ht
      cases t with
      | zero =>
        obtain rfl := Option.some.inj ht
        simpa using hchoice
      | succ t =>
        have hchoice := hchoices t i ht
        rwa [← List.append_cons] at hchoice

/-- **The first centres.** Of at least `k` finite points, however many of them are the same and even if distances
overflow, `k` different positions are chosen, and the centres are the points there. Each position after the first is
the first one of a point that is farthest from the nearest of the centres before it or, if all points are at the
distance zero from these, the first position that is not used; there always is one. -/
theorem startPositions_farthest (seed : UInt64) {k : ℕ} (hk : 0 < k) (hle : k ≤ points.length) :
    (startPositions seed points k).length = k ∧ (startPositions seed points k).Nodup ∧
    (∀ t i : ℕ, (startPositions seed points k)[t]? = some i →
      i < points.length ∧ (startPartition seed points k).centres[t]? = points[i]?) ∧
    ∀ t i : ℕ, (startPositions seed points k)[t + 1]? = some i →
      IsChoice points ((startPositions seed points k).take (t + 1)) i := by
  have hne : points ≠ [] := List.ne_nil_of_length_pos (hk.trans_le hle)
  have hbelow := lt_of_mem_startPositions seed hne k
  let first := ((Generator.ofSeed seed).below points.length).1
  have hlt : first < points.length := Generator.below_lt (List.length_pos_of_ne_nil hne) _
  have hy : points[first]? = some (points.getD first []) := by
    rw [List.getElem?_eq_getElem hlt, List.getD_eq_getElem _ _ hlt]
  have hcount : [first].length + (k - 1) ≤ points.length := by
    rw [List.length_singleton]
    omega
  obtain ⟨later, hlater, hnodup, hchoices⟩ :=
    exists_extendPositions hfinite (tracksReach_singleton hfinite hy) (List.nodup_singleton first) hcount
  have hpositions : startPositions seed points k = first :: later := hlater
  refine ⟨length_startPositions seed points hk, hpositions ▸ hnodup, ?_, ?_⟩
  · intro t i ht
    have hi := hbelow i (List.mem_of_getElem? ht)
    refine ⟨hi, ?_⟩
    rw [startPartition, pointsAt, List.getElem?_map, ht, Option.map_some, List.getElem?_eq_getElem hi,
      List.getD_eq_getElem _ _ hi]
  · intro t i ht
    rw [hpositions] at ht ⊢
    exact hchoices t i ht

end Positions

/-- Four points on a line of which three are the same, so far from the fourth that the squared distance is
infinite. -/
def distantPoints : List (Point Float) := [[-1e300], [-1e300], [1e300], [-1e300]]

/-- With a centre for each of the four points, every position is used once. -/
theorem distantPoints_farthest :
    (∀ x ∈ distantPoints, FinitePoint x) ∧ 4 ≤ distantPoints.length ∧
    Point.squaredDistance [-1e300] [1e300] = infinity ∧
    (startPositions 0 distantPoints 4).Nodup ∧
    ∀ i, (startPositions 0 distantPoints 4)[3]? = some i →
      IsChoice distantPoints ((startPositions 0 distantPoints 4).take 3) i := by
  have hfinite : ∀ x ∈ distantPoints, FinitePoint x := by decide +kernel
  have hle : 4 ≤ distantPoints.length := by decide
  obtain ⟨-, hnodup, -, hchoices⟩ := startPositions_farthest hfinite 0 (Nat.succ_pos 3) hle
  exact ⟨hfinite, hle, by decide +kernel, hnodup, fun i hi => hchoices 2 i hi⟩

end DelayTuning
