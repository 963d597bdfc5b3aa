import DelayTuning.Proofs.Surrogate.Kernel

/-!
# The length scale of some points

Without a length scale the kernel takes the median distance of its points. Distances that are zero do not count, so
the median is positive even if points repeat, and the kernel does not divide by zero. Which distances there are depends
neither on the order of the points nor on where they lie as a whole.

## Main definitions

- `Point.euclidean`: a point as one of Euclidean space
- `pointDistances`: the positive distances of some points, one for each pair of positions
- `Point.shift`: a point moved by a vector

## Main statements

- `coe_pairDistances`: the distances that the median is taken of
- `value_medianDistance`: the median as an entry of the sorted distances
- `medianDistance_perm`, `medianDistance_shift`: what the median does not depend on
- `medianDistance_isMedian`: these together, and the divisor of the kernel
-/

namespace DelayTuning

/-! ### Distances -/

/-- A point with `n` coordinates as one of Euclidean space. -/
noncomputable def Point.euclidean (n : ℕ) (x : Point (Exact ℝ)) : EuclideanSpace ℝ (Fin n) :=
  WithLp.toLp _ (x.vector n)

/-- The pairs of different positions below `m`, each one once. -/
def positionPairs (m : ℕ) : Finset (Fin m × Fin m) :=
  Finset.univ.filter fun p => p.1 < p.2

/-- The positive distances of some points, one for each pair of positions. -/
noncomputable def pointDistances (n : ℕ) (points : List (Point (Exact ℝ))) : Multiset ℝ :=
  ((positionPairs points.length).val.map fun p =>
    dist ((points.get p.1).euclidean n) ((points.get p.2).euclidean n)).filter fun d => 0 < d

theorem pos_of_mem_pointDistances {n : ℕ} {points : List (Point (Exact ℝ))} {d : ℝ}
    (h : d ∈ pointDistances n points) : 0 < d :=
  (Multiset.mem_filter.mp h).2

section Pairs

variable {β : Type} {m : ℕ}

theorem map_val_eq_sum {ι : Type} (s : Finset ι) (f : ι → β) : s.val.map f = ∑ i ∈ s, {f i} := by
  have hsingletons := Multiset.sum_map_singleton (s.val.map f)
  rw [Multiset.map_map] at hsingletons
  exact hsingletons.symm

theorem map_positionPairs (f : Fin m × Fin m → β) :
    (positionPairs m).val.map f = ∑ i, ∑ j ∈ Finset.Ioi i, {f (i, j)} := by
  rw [map_val_eq_sum, positionPairs, Finset.sum_filter, Fintype.sum_prod_type]
  refine Finset.sum_congr rfl fun i _ => ?_
  rw [← Finset.sum_filter, Finset.filter_lt_eq_Ioi]

/-- The pairs with the first position, and those behind it. -/
theorem map_positionPairs_succ (f : Fin (m + 1) × Fin (m + 1) → β) :
    (positionPairs (m + 1)).val.map f =
      Finset.univ.val.map (fun j : Fin m => f (0, j.succ)) +
        (positionPairs m).val.map fun p => f (p.1.succ, p.2.succ) := by
  rw [map_positionPairs, map_positionPairs, map_val_eq_sum, Fin.sum_univ_succ, Fin.sum_Ioi_zero]
  refine congrArg _ (Finset.sum_congr rfl fun i _ => ?_)
  exact Fin.sum_Ioi_succ _ i

end Pairs

section Distances

variable {n : ℕ} {a b : Point (Exact ℝ)} {points : List (Point (Exact ℝ))}

theorem value_distance (ha : a.length = n) (hb : b.length = n) :
    (RealScalar.sqrt (Point.squaredDistance a b)).value = dist (a.euclidean n) (b.euclidean n) := by
  have hsum : (Point.squaredDistance a b).value = ∑ i, dist (a.euclidean n i) (b.euclidean n i) ^ 2 := by
    rw [Exact.value_squaredDistance ha hb, Finset.sum_range]
    refine Finset.sum_congr rfl fun i _ => ?_
    rw [Real.dist_eq, sq_abs]
    rfl
  rw [EuclideanSpace.dist_eq, ← hsum]
  rfl

/-- The positive distances of a point from others. -/
theorem map_value_positiveDistances (ha : a.length = n) (h : ∀ b ∈ points, b.length = n) :
    (positiveDistances a points).map Exact.value =
      (points.map fun b => dist (a.euclidean n) (b.euclidean n)).filter fun d => 0 < d := by
  induction points with
  | nil => rfl
  | cons b rest ih =>
    have hrest := ih fun c hc => h c (List.mem_cons_of_mem b hc)
    have hvalue := value_distance ha (h b List.mem_cons_self)
    have hpositive : (0.0 < RealScalar.sqrt (Point.squaredDistance a b)) ↔
        0 < dist (a.euclidean n) (b.euclidean n) := by
      rw [Exact.lt_iff, hvalue, Exact.value_zero]
    rw [positiveDistances] at hrest ⊢
    simp only [List.map_cons, List.filter_cons, decide_eq_true_eq, hpositive]
    split
    · rw [List.map_cons, hvalue, hrest]
    · exact hrest

/-- The distances that the median is taken of are those of all pairs of positions. -/
theorem coe_pairDistances (h : ∀ a ∈ points, a.length = n) :
    ((pairDistances points).map Exact.value : Multiset ℝ) = pointDistances n points := by
  induction points with
  | nil => rfl
  | cons a rest ih =>
    have hrest := ih fun b hb => h b (List.mem_cons_of_mem a hb)
    have hfirst := map_value_positiveDistances (h a List.mem_cons_self)
      fun b hb => h b (List.mem_cons_of_mem a hb)
    have hpairs := map_positionPairs_succ (m := rest.length) fun p =>
      dist (((a :: rest).get p.1).euclidean n) (((a :: rest).get p.2).euclidean n)
    have hcolumn : Finset.univ.val.map (fun j : Fin rest.length =>
        dist (((a :: rest).get 0).euclidean n) (((a :: rest).get j.succ).euclidean n)) =
          ((rest.map fun b => dist (a.euclidean n) (b.euclidean n) : List ℝ) : Multiset ℝ) := by
      rw [Fin.univ_val_map]
      exact congrArg _ (List.ofFn_getElem_eq_map rest fun b => dist (a.euclidean n) (b.euclidean n))
    rw [pairDistances, List.map_append, ← Multiset.coe_add, hrest, hfirst]
    refine Eq.trans ?_ (congrArg (Multiset.filter fun d => 0 < d) hpairs).symm
    rw [hcolumn, Multiset.filter_add, Multiset.filter_coe]
    rfl

end Distances

/-! ### The median -/

section Median

variable {n : ℕ} {points others : List (Point (Exact ℝ))} {v a : Point (Exact ℝ)}

/-- The sorted distances have an entry in the middle, unless there is none. -/
theorem value_medianDistance (h : ∀ a ∈ points, a.length = n) :
    (medianDistance points n).value =
      ((pointDistances n points).sort (· ≤ ·)).getD ((pointDistances n points).card / 2) (√n / 2) := by
  have hlength : (pairDistances points).length = (pointDistances n points).card := by
    rw [← coe_pairDistances h, Multiset.coe_card, List.length_map]
  have hsorted : ((pairDistances points).mergeSort fun a b => decide (a ≤ b)).map Exact.value =
      (pointDistances n points).sort (· ≤ ·) := by
    rw [← coe_pairDistances h, Multiset.coe_sort]
    exact List.map_mergeSort fun a _ b _ => rfl
  have hfallback : (0.5 * RealScalar.sqrt (n : Exact ℝ) : Exact ℝ).value = √n / 2 := by
    have hhalf : (0.5 : Exact ℝ).value = 0.5 := rfl
    have hroot : (RealScalar.sqrt (n : Exact ℝ)).value = √n := rfl
    rw [Exact.value_mul, hhalf, hroot]
    ring
  rw [medianDistance, List.getD_eq_getElem?_getD, ← hsorted, List.getElem?_map, ← hlength]
  cases ((pairDistances points).mergeSort fun a b => decide (a ≤ b))[(pairDistances points).length / 2]? with
  | some d => rfl
  | none => exact hfallback

/-- The median is one of the positive distances, and half the diagonal of the cube is positive too. -/
theorem medianDistance_pos (hn : 1 ≤ n) (h : ∀ a ∈ points, a.length = n) :
    0 < (medianDistance points n).value := by
  rw [value_medianDistance h, List.getD_eq_getElem?_getD]
  cases hmiddle : ((pointDistances n points).sort (· ≤ ·))[(pointDistances n points).card / 2]? with
  | some d => exact pos_of_mem_pointDistances ((Multiset.mem_sort _).mp (List.mem_of_getElem? hmiddle))
  | none =>
    have hdiagonal : 0 < √(n : ℝ) := Real.sqrt_pos.mpr (Nat.cast_pos.mpr hn)
    exact half_pos hdiagonal

/-! ### What the median does not depend on -/

theorem positiveDistances_cons (a b : Point (Exact ℝ)) (points : List (Point (Exact ℝ))) :
    positiveDistances a (b :: points) = positiveDistances a [b] ++ positiveDistances a points :=
  List.filter_append (p := fun d : Exact ℝ => decide (0.0 < d)) [RealScalar.sqrt (Point.squaredDistance a b)] _

theorem pairDistances_perm (h : others.Perm points) : (pairDistances others).Perm (pairDistances points) := by
  induction h with
  | nil => exact List.Perm.refl _
  | cons a hrest ih => exact ((hrest.map _).filter _).append ih
  | swap a b rest =>
    -- both lists start with the distance of the two points, and the others change places
    have hself : positiveDistances b [a] = positiveDistances a [b] := by
      rw [positiveDistances, positiveDistances, List.map_singleton, List.map_singleton, squaredDistance_comm]
    rw [pairDistances, pairDistances, pairDistances, pairDistances, positiveDistances_cons b a,
      positiveDistances_cons a b, hself]
    simp only [List.append_assoc]
    refine List.Perm.append_left _ ?_
    simp only [← List.append_assoc]
    exact List.perm_append_comm.append_right _
  | trans _ _ ih ih' => exact ih.trans ih'

/-- The order of the points does not matter. -/
theorem medianDistance_perm (hperm : others.Perm points) (h : ∀ a ∈ points, a.length = n) :
    medianDistance others n = medianDistance points n := by
  have h' : ∀ a ∈ others, a.length = n := fun a ha => h a (hperm.mem_iff.mp ha)
  have hsame : pointDistances n others = pointDistances n points := by
    rw [← coe_pairDistances h, ← coe_pairDistances h', Multiset.coe_eq_coe]
    exact (pairDistances_perm hperm).map Exact.value
  ext
  rw [value_medianDistance h, value_medianDistance h', hsame]

/-- A point moved by a vector. -/
noncomputable def Point.shift (v a : Point (Exact ℝ)) : Point (Exact ℝ) :=
  List.zipWith (· + ·) a v

theorem Point.length_shift (hv : v.length = n) (ha : a.length = n) :
    (v.shift a).length = n := by
  rw [shift, List.length_zipWith, ha, hv, Nat.min_self]

theorem Point.euclidean_shift (hv : v.length = n) (ha : a.length = n) :
    (v.shift a).euclidean n = a.euclidean n + v.euclidean n := by
  ext i
  obtain ⟨c, hc⟩ := exists_getElem? ha i
  obtain ⟨d, hd⟩ := exists_getElem? hv i
  have hsum : (v.shift a)[(i : ℕ)]? = some (c + d) :=
    List.getElem?_zipWith_eq_some.mpr ⟨c, d, hc, hd, rfl⟩
  show (v.shift a).vector n i = a.vector n i + v.vector n i
  rw [vector_apply hc, vector_apply hd, vector_apply hsum, Exact.value_add]

theorem pairDistances_shift (hv : v.length = n) (h : ∀ a ∈ points, a.length = n) :
    pairDistances (points.map v.shift) = pairDistances points := by
  induction points with
  | nil => rfl
  | cons a rest ih =>
    have ha := h a List.mem_cons_self
    have hdistance : ∀ b ∈ rest, RealScalar.sqrt (Point.squaredDistance (v.shift a) (v.shift b)) =
        RealScalar.sqrt (Point.squaredDistance a b) := by
      intro b hb
      have hb := h b (List.mem_cons_of_mem a hb)
      ext
      rw [value_distance (Point.length_shift hv ha) (Point.length_shift hv hb), value_distance ha hb,
        Point.euclidean_shift hv ha, Point.euclidean_shift hv hb, dist_add_right]
    have hfirst : positiveDistances (v.shift a) (rest.map v.shift) = positiveDistances a rest := by
      rw [positiveDistances, positiveDistances, List.map_map]
      exact congrArg _ (List.map_congr_left hdistance)
    rw [List.map_cons, pairDistances, pairDistances, hfirst, ih fun b hb => h b (List.mem_cons_of_mem a hb)]

/-- Where the points lie as a whole does not matter. -/
theorem medianDistance_shift (hv : v.length = n) (h : ∀ a ∈ points, a.length = n) :
    medianDistance (points.map v.shift) n = medianDistance points n := by
  rw [medianDistance, medianDistance, pairDistances_shift hv h]

theorem Regression.lengthScale_of_fit? {config : KernelConfig (Exact ℝ)} {inputs : List (Point (Exact ℝ))}
    {values : List (Exact ℝ)} {model : Regression (Exact ℝ)}
    (h : Regression.fit? config n inputs values = some model) :
    model.lengthScale = config.lengthScale.getD (medianDistance inputs n) := by
  rw [fit?] at h
  split at h
  · cases h
    rfl
  · cases h

/-- **The length scale without rounding.** The median distance of points with `n` coordinates is positive, whatever
points repeat. It is the entry in the middle of the sorted positive distances, the upper one of two, or half the
diagonal of the cube if no distance is positive. It stays the same if the points change places or are all moved by one
vector. So a kernel without a length scale of its own, such as the standard one, does not divide by zero, neither in the
fit nor in the model. -/
theorem medianDistance_isMedian (hn : 1 ≤ n) (h : ∀ a ∈ points, a.length = n) :
    let distances := pointDistances n points
    let ℓ := medianDistance points n
    0 < ℓ.value ∧
    (distances = 0 → ℓ.value = √n / 2) ∧
    (distances ≠ 0 → (distances.sort (· ≤ ·))[distances.card / 2]? = some ℓ.value) ∧
    (∀ others, others.Perm points → medianDistance others n = ℓ) ∧
    (∀ v : Point (Exact ℝ), v.length = n → medianDistance (points.map v.shift) n = ℓ) ∧
    ∀ config : KernelConfig (Exact ℝ), config.lengthScale = none →
      let scale := config.lengthScale.getD (medianDistance points n)
      0 < (scale * scale).value ∧
      ∀ values model, Regression.fit? config n points values = some model → model.lengthScale = scale := by
  intro distances ℓ
  have hpos : 0 < ℓ.value := medianDistance_pos hn h
  have hmedian : ℓ.value = (distances.sort (· ≤ ·)).getD (distances.card / 2) (√n / 2) := value_medianDistance h
  refine ⟨hpos, ?_, ?_, fun others hperm => medianDistance_perm hperm h,
    fun v hv => medianDistance_shift hv h, ?_⟩
  · intro hnone
    rw [hmedian, hnone, Multiset.sort_zero, List.getD_nil]
  · intro hsome
    have hcard : 0 < distances.card := Multiset.card_pos.mpr hsome
    have hmiddle : distances.card / 2 < (distances.sort (· ≤ ·)).length := by
      rw [Multiset.length_sort]
      exact Nat.div_lt_self hcard Nat.one_lt_two
    rw [hmedian, List.getD_eq_getElem _ _ hmiddle, List.getElem?_eq_getElem hmiddle]
  · intro config hnone scale
    have hscale : scale = ℓ := by
      show config.lengthScale.getD ℓ = ℓ
      rw [hnone, Option.getD_none]
    refine ⟨?_, fun values model hfit => Regression.lengthScale_of_fit? hfit⟩
    rw [hscale]
    exact mul_pos hpos hpos

end Median

/-! ### Points that repeat -/

/-- Points on a line. -/
def linePoints (xs : List ℝ) : List (Point (Exact ℝ)) :=
  xs.map fun x => [⟨x⟩]

theorem length_of_mem_linePoints (xs : List ℝ) : ∀ a ∈ linePoints xs, a.length = 1 := by
  intro a ha
  obtain ⟨x, -, rfl⟩ := List.mem_map.mp ha
  rfl

theorem dist_line (x y : ℝ) :
    dist (Point.euclidean 1 [⟨x⟩]) (Point.euclidean 1 [⟨y⟩]) = |x - y| := by
  rw [EuclideanSpace.dist_eq, Fin.sum_univ_one, Real.sqrt_sq dist_nonneg]
  rfl

/-- The positive distances of a point on the line from others. -/
theorem map_value_positiveDistances_line (x : ℝ) (xs : List ℝ) :
    (positiveDistances [⟨x⟩] (linePoints xs)).map Exact.value =
      (xs.map fun y => |x - y|).filter fun d => 0 < d := by
  rw [map_value_positiveDistances rfl (length_of_mem_linePoints xs), linePoints, List.map_map]
  exact congrArg _ (List.map_congr_left fun y _ => dist_line x y)

/-- The first two points are the same, so one of the six distances does not count. -/
theorem pointDistances_linePoints : pointDistances 1 (linePoints [0, 0, 3, 1]) = ([1, 1, 2, 3, 3] : List ℝ) := by
  have hpairs : ∀ (x : ℝ) (xs : List ℝ), (pairDistances (linePoints (x :: xs))).map Exact.value =
      ((xs.map fun y => |x - y|).filter fun d => 0 < d) ++ (pairDistances (linePoints xs)).map Exact.value := by
    intro x xs
    rw [← map_value_positiveDistances_line, ← List.map_append]
    rfl
  have hvalues : (pairDistances (linePoints [0, 0, 3, 1])).map Exact.value = [3, 1, 3, 1, 2] := by
    rw [hpairs, hpairs, hpairs, hpairs]
    norm_num [linePoints, pairDistances]
  have hperm : List.Perm [3, 1, 3, 1, 2] ([1, 1, 2, 3, 3] : List ℕ) := by decide
  rw [← coe_pairDistances (length_of_mem_linePoints _), hvalues, Multiset.coe_eq_coe]
  simpa using hperm.map (Nat.cast : ℕ → ℝ)

/-- The distance in the middle, also for the points in another order and for points that lie elsewhere. -/
theorem linePoints_isMedian :
    (medianDistance (linePoints [0, 0, 3, 1]) 1).value = 2 ∧
      (medianDistance (linePoints [1, 3, 0, 0]) 1).value = 2 ∧
      (medianDistance ((linePoints [0, 0, 3, 1]).map (Point.shift [⟨5⟩])) 1).value = 2 := by
  obtain ⟨-, -, hmiddle, horder, hshift, -⟩ :=
    medianDistance_isMedian le_rfl (length_of_mem_linePoints [0, 0, 3, 1])
  have hperm : (linePoints [1, 3, 0, 0]).Perm (linePoints [0, 0, 3, 1]) := by
    have hreversed : linePoints [1, 3, 0, 0] = (linePoints [0, 0, 3, 1]).reverse := rfl
    rw [hreversed]
    exact List.reverse_perm _
  have hsorted : ([1, 1, 2, 3, 3] : List ℝ).Pairwise fun a b => decide (a ≤ b) = true := by
    norm_num
  have htwo : (medianDistance (linePoints [0, 0, 3, 1]) 1).value = 2 := by
    rw [pointDistances_linePoints, Multiset.coe_sort, List.mergeSort_of_pairwise hsorted] at hmiddle
    exact (Option.some_inj.mp (hmiddle (by simp))).symm
  refine ⟨htwo, ?_, ?_⟩
  · rw [horder _ hperm, htwo]
  · rw [hshift [⟨5⟩] rfl, htwo]

end DelayTuning
