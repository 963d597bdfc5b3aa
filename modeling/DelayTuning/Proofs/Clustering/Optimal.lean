import DelayTuning.Proofs.Clustering.Partition
import DelayTuning.Proofs.Exact

/-!
# Best labels and best centres

In exact arithmetic each half of a round is a best answer to what the other half has left. Of all labels
of a point, the one it gets has the nearest centre, and the lowest number of several nearest ones. Of all
centres of a cluster with members, their mean has the least sum of squared distances. Where an empty
cluster goes makes no difference to these sums, since no point has its number.

What a point costs is its squared distance and then its label, in lexicographic order. So the best label
of a point is the only one.

## Main definitions

- `rank`: the squared distance of a point from a centre, then the number of the centre
- `IsNearest`: the lowest number of a nearest centre
- `cost`: the ranks of all points together
- `meanCost`: the cost of labels when the centres are the means of the clusters

## Main statements

- `isNearest_nearestCentre`: the nearest centre that is searched for
- `sum_squaredDistance_meanPoint_le`: the mean of some points is nearest to all of them together
- `cost_assign_lt`: labels other than those of the nearest centres cost more
- `cost_updateCentres`, `meanCost_le`: the new centres cost what the means cost, and no centres cost less
-/

namespace DelayTuning

variable {K : Type} [Field K] [LinearOrder K]

/-! ### Nearest centres -/

/-- The squared distance of a point from the centre with a given number, then this number. -/
def rank (x : Point (Exact K)) (centreOf : ℕ → Point (Exact K)) (label : ℕ) : K ×ₗ ℕ :=
  toLex ((Point.squaredDistance x (centreOf label)).value, label)

/-- The centre with a given number. -/
def centreAt (centres : List (Point (Exact K))) (label : ℕ) : Point (Exact K) := centres.getD label []

/-- The lowest number of a centre nearest to `x`. -/
structure IsNearest (x : Point (Exact K)) (centres : List (Point (Exact K))) (label : ℕ) : Prop where
  lt : label < centres.length
  rank_le : ∀ j < centres.length, rank x (centreAt centres) label ≤ rank x (centreAt centres) j

theorem rank_append {centres : List (Point (Exact K))} {label : ℕ} (h : label < centres.length)
    (x centre : Point (Exact K)) :
    rank x (centreAt (centres ++ [centre])) label = rank x (centreAt centres) label := by
  rw [rank, rank, centreAt, centreAt, List.getD_append _ _ _ _ h]

theorem rank_append_length (centres : List (Point (Exact K))) (x centre : Point (Exact K)) :
    rank x (centreAt (centres ++ [centre])) centres.length =
      toLex ((Point.squaredDistance x centre).value, centres.length) := by
  rw [rank, centreAt, List.getD_append_right _ _ _ _ le_rfl, Nat.sub_self, List.getD_cons_zero]

namespace IsNearest

variable {x centre : Point (Exact K)} {centres : List (Point (Exact K))} {best : ℕ}

/-- What is nearer than the nearest centre so far is the nearest one. -/
theorem replace (h : IsNearest x centres best)
    (hd : Point.squaredDistance x centre < Point.squaredDistance x (centreAt centres best)) :
    IsNearest x (centres ++ [centre]) centres.length where
  lt := by simp
  rank_le := by
    intro j hj
    rw [List.length_append, List.length_singleton, Nat.lt_succ_iff_lt_or_eq] at hj
    obtain hj | rfl := hj
    · rw [rank_append_length, rank_append hj]
      exact le_of_lt (lt_of_lt_of_le (Prod.Lex.toLex_lt_toLex.mpr (Or.inl hd)) (h.rank_le j hj))
    · exact le_rfl

/-- What is not nearer than the nearest centre so far leaves it the nearest one. -/
theorem keep (h : IsNearest x centres best)
    (hd : ¬ Point.squaredDistance x centre < Point.squaredDistance x (centreAt centres best)) :
    IsNearest x (centres ++ [centre]) best where
  lt := by
    rw [List.length_append]
    exact Nat.lt_add_right _ h.lt
  rank_le := by
    intro j hj
    rw [List.length_append, List.length_singleton, Nat.lt_succ_iff_lt_or_eq] at hj
    rw [rank_append h.lt]
    obtain hj | rfl := hj
    · rw [rank_append hj]
      exact h.rank_le j hj
    · rw [rank_append_length]
      exact Prod.Lex.toLex_mono ⟨not_lt.mp hd, h.lt.le⟩

end IsNearest

/-- The search among the other centres, when `best` is nearest among those before. -/
theorem isNearest_nearestFrom {x : Point (Exact K)} {before : List (Point (Exact K))} {best : ℕ}
    (h : IsNearest x before best) (rest : List (Point (Exact K))) :
    IsNearest x (before ++ rest) (nearestFrom x rest before.length
      (some (best, Point.squaredDistance x (centreAt before best)))) := by
  induction rest generalizing before best with
  | nil =>
    rw [List.append_nil]
    exact h
  | cons centre rest ih =>
    have hsplit : before ++ centre :: rest = (before ++ [centre]) ++ rest := by simp
    have hlength : before.length + 1 = (before ++ [centre]).length := by simp
    rw [nearestFrom, hsplit, hlength]
    simp only [decide_eq_true_eq]
    split
    · next hd =>
      have hcentre : centreAt (before ++ [centre]) before.length = centre := by simp [centreAt]
      have hnearest := ih (h.replace hd)
      rwa [hcentre] at hnearest
    · next hd =>
      have hcentre : centreAt (before ++ [centre]) best = centreAt before best :=
        List.getD_append _ _ _ _ h.lt
      have hnearest := ih (h.keep hd)
      rwa [hcentre] at hnearest

theorem isNearest_nearestCentre (x : Point (Exact K)) {centres : List (Point (Exact K))} (h : centres ≠ []) :
    IsNearest x centres (nearestCentre x centres) := by
  obtain ⟨centre, rest, rfl⟩ := List.exists_cons_of_ne_nil h
  have hfirst : IsNearest x [centre] 0 := by
    refine ⟨Nat.zero_lt_one, ?_⟩
    intro j hj
    obtain rfl := Nat.lt_one_iff.mp hj
    exact le_rfl
  exact isNearest_nearestFrom hfirst rest

/-! ### Means -/

variable [IsStrictOrderedRing K]

section

variable {group : List (Point (Exact K))} {dimension : ℕ}

/-- A coordinate of the mean is the mean of the coordinates. -/
theorem getD_values_meanPoint (h : ∀ x ∈ group, x.length = dimension) {j : ℕ} (hj : j < dimension) :
    (meanPoint dimension group).values.getD j 0 =
      (group.map fun x => x.values.getD j 0).sum / (group.map fun x => x.values.getD j 0).length := by
  have hsum : ∀ total : Point (Exact K), total.length = dimension →
      (Point.values (group.foldl (fun total x => List.zipWith (fun s c => s + c) total x) total)).getD
        j 0 = total.values.getD j 0 + (group.map fun x => x.values.getD j 0).sum := by
    induction group with
    | nil => simp
    | cons x rest ih =>
      intro total htotal
      have hx := h x List.mem_cons_self
      have hlength : (List.zipWith (fun s c => s + c) total x).length = dimension := by
        rw [List.length_zipWith, htotal, hx, Nat.min_self]
      rw [List.foldl_cons, ih (fun y hy => h y (List.mem_cons_of_mem x hy)) _ hlength, List.map_cons,
        List.sum_cons, ← add_assoc, Point.getD_values (hlength ▸ hj), Point.getD_values (htotal ▸ hj),
        Point.getD_values (hx ▸ hj), List.getElem_zipWith]
      rfl
  have hstart : (Point.values (List.replicate dimension (0.0 : Exact K))).getD j 0 = 0 := by
    rw [Point.getD_values (by simpa using hj), List.getElem_replicate, Exact.value_zero]
  have hdivided : ∀ s : Exact K,
      (s / (group.length : Exact K)).value = s.value / (group.length : K) := fun _ => rfl
  have hlength : j < (meanPoint dimension group).length := by rwa [length_meanPoint h]
  rw [Point.getD_values hlength]
  simp only [meanPoint, List.getElem_map, List.length_map, hdivided]
  rw [← Point.getD_values _ 0, hsum _ List.length_replicate, hstart, zero_add]

/-- The sum of the squared distances from a point, coordinate by coordinate. -/
theorem sum_squaredDistance_eq (h : ∀ x ∈ group, x.length = dimension) {c : Point (Exact K)}
    (hc : c.length = dimension) :
    (group.map fun x => (Point.squaredDistance x c).value).sum =
      ∑ j ∈ Finset.range dimension,
        ((group.map fun x => x.values.getD j 0).map fun y => (y - c.values.getD j 0) ^ 2).sum := by
  induction group with
  | nil => simp
  | cons x rest ih =>
    have hx := Exact.value_squaredDistance (h x List.mem_cons_self) hc
    have hrest := ih fun y hy => h y (List.mem_cons_of_mem x hy)
    rw [List.map_cons, List.sum_cons, hx, hrest, ← Finset.sum_add_distrib]
    rfl

/-- No point is nearer to some points, all together, than their mean. -/
theorem sum_squaredDistance_meanPoint_le (hne : group ≠ []) (h : ∀ x ∈ group, x.length = dimension)
    {c : Point (Exact K)} (hc : c.length = dimension) :
    (group.map fun x => (Point.squaredDistance x (meanPoint dimension group)).value).sum ≤
      (group.map fun x => (Point.squaredDistance x c).value).sum := by
  rw [sum_squaredDistance_eq h hc, sum_squaredDistance_eq h (length_meanPoint h)]
  refine Finset.sum_le_sum ?_
  intro j hj
  rw [getD_values_meanPoint h (Finset.mem_range.mp hj)]
  exact sum_sq_sub_mean_le (by simpa using hne) _

end

/-! ### The cost of a partition -/

section

variable {points : List (Point (Exact K))} {labels : List ℕ} {centreOf : ℕ → Point (Exact K)}
  {k dimension : ℕ}

/-- What the points cost with given labels and centres: the ranks of the points, added up. -/
def cost (points : List (Point (Exact K))) (centreOf : ℕ → Point (Exact K)) (labels : List ℕ) :
    K ×ₗ ℕ :=
  ((points.zip labels).map fun q => rank q.1 centreOf q.2).sum

/-- What the points cost when each cluster has the mean of its members as its centre. -/
def meanCost (points : List (Point (Exact K))) (dimension : ℕ) (labels : List ℕ) : K ×ₗ ℕ :=
  cost points (fun label => meanPoint dimension (members points labels label)) labels

omit [IsStrictOrderedRing K] in
/-- The cost consists of the sum of the squared distances and the sum of the labels. -/
theorem cost_eq (points : List (Point (Exact K))) (centreOf : ℕ → Point (Exact K)) (labels : List ℕ) :
    cost points centreOf labels = toLex
      (((points.zip labels).map fun q => (Point.squaredDistance q.1 (centreOf q.2)).value).sum,
        ((points.zip labels).map Prod.snd).sum) := by
  rw [cost]
  induction points.zip labels with
  | nil => rfl
  | cons q rest ih =>
    rw [List.map_cons, List.sum_cons, ih]
    rfl

theorem inertia_eq (points : List (Point (Exact K))) (p : Partition (Exact K)) :
    (inertia points p).value = (ofLex (cost points (centreAt p.centres) p.labels)).1 := by
  rw [inertia, Exact.value_sum, cost_eq]
  simp [List.zip, List.map_zipWith, centreAt]

omit [IsStrictOrderedRing K] in
/-- The cost of the nearest centres' labels, point by point beside other labels. -/
theorem cost_assign_eq (hlength : labels.length = points.length) (centreOf : ℕ → Point (Exact K))
    (centres : List (Point (Exact K))) :
    cost points centreOf (assign points centres) =
      ((points.zip labels).map fun q => rank q.1 centreOf (nearestCentre q.1 centres)).sum := by
  have hfst : (points.zip labels).map Prod.fst = points := List.map_fst_zip hlength.ge
  have hpairs : points.zip (assign points centres) =
      points.map fun x => (x, nearestCentre x centres) := List.map_prod_left_eq_zip.symm
  rw [cost, hpairs, List.map_map]
  conv_lhs => rw [← hfst, List.map_map]
  rfl

/-- Any other labels than those of the nearest centres cost more. -/
theorem cost_assign_lt {centres : List (Point (Exact K))} (hlength : labels.length = points.length)
    (hbounded : ∀ label ∈ labels, label < centres.length) (hne : assign points centres ≠ labels) :
    cost points (centreAt centres) (assign points centres) < cost points (centreAt centres) labels := by
  have hnearest : ∀ q ∈ points.zip labels, IsNearest q.1 centres (nearestCentre q.1 centres) ∧
      q.2 < centres.length := by
    intro q hq
    have hlt := hbounded q.2 (List.of_mem_zip hq).2
    exact ⟨isNearest_nearestCentre q.1 (List.ne_nil_of_length_pos (by omega)), hlt⟩
  obtain ⟨q, hq, hlabel⟩ : ∃ q ∈ points.zip labels, nearestCentre q.1 centres ≠ q.2 := by
    by_contra! hall
    refine hne ?_
    calc assign points centres
      _ = ((points.zip labels).map Prod.fst).map fun x => nearestCentre x centres := by
        rw [List.map_fst_zip hlength.ge, assign]
      _ = (points.zip labels).map Prod.snd := by
        rw [List.map_map]
        exact List.map_congr_left hall
      _ = labels := List.map_snd_zip hlength.le
  rw [cost_assign_eq hlength, cost]
  refine List.sum_lt_sum _ _ ?_ ⟨q, hq, ?_⟩
  · exact fun r hr => (hnearest r hr).1.rank_le r.2 (hnearest r hr).2
  · refine lt_of_le_of_ne ((hnearest q hq).1.rank_le q.2 (hnearest q hq).2) ?_
    exact fun heq => hlabel (congrArg Prod.snd (toLex.injective heq))

/-- The labels of the nearest centres cost no more than any others. -/
theorem cost_assign_le {centres : List (Point (Exact K))} (hlength : labels.length = points.length)
    (hbounded : ∀ label ∈ labels, label < centres.length) :
    cost points (centreAt centres) (assign points centres) ≤ cost points (centreAt centres) labels := by
  by_cases hne : assign points centres = labels
  · rw [hne]
  · exact (cost_assign_lt hlength hbounded hne).le

/-! ### The means cost least -/

omit [LinearOrder K] [IsStrictOrderedRing K] in
/-- A sum over the points with their labels, taken cluster by cluster. -/
theorem sum_zip_eq_sum_members (f : Point (Exact K) → ℕ → K) {clusters : Finset ℕ}
    (h : ∀ q ∈ points.zip labels, q.2 ∈ clusters) :
    ((points.zip labels).map fun q => f q.1 q.2).sum =
      ∑ label ∈ clusters, ((members points labels label).map fun x => f x label).sum := by
  simp only [members]
  generalize points.zip labels = pairs at h ⊢
  induction pairs with
  | nil => simp
  | cons q rest ih =>
    have hterm : ∀ label ∈ clusters,
        ((((q :: rest).filter fun r => r.2 == label).map Prod.fst).map fun x => f x label).sum =
          (if q.2 = label then f q.1 label else 0) +
            (((rest.filter fun r => r.2 == label).map Prod.fst).map fun x => f x label).sum := by
      intro label _
      by_cases hlabel : q.2 = label
      · simp [hlabel]
      · simp [hlabel]
    rw [Finset.sum_congr rfl hterm, Finset.sum_add_distrib, Finset.sum_ite_eq,
      if_pos (h q List.mem_cons_self), ← ih fun r hr => h r (List.mem_cons_of_mem q hr)]
    rfl

omit [IsStrictOrderedRing K] in
/-- The new centres of a round cost what the means cost. -/
theorem cost_updateCentres {p : Partition (Exact K)} (h : p.WellFormed points k dimension) (hk : 0 < k) :
    cost points (centreAt (updateCentres points p.labels p.centres)) p.labels =
      meanCost points dimension p.labels := by
  have hcentre : ∀ q ∈ points.zip p.labels, centreAt (updateCentres points p.labels p.centres) q.2 =
      meanPoint dimension (members points p.labels q.2) := by
    intro q hq
    have hlabel := (List.of_mem_zip hq).2
    rw [centreAt, updateCentres, h.headD_length hk, getD_updateFrom]
    · rw [Nat.zero_add]
    · rw [h.count]
      exact h.bounded q.2 hlabel
    · rw [Nat.zero_add]
      exact members_ne_nil h.labels hlabel
  rw [meanCost, cost, cost]
  refine congrArg List.sum (List.map_congr_left ?_)
  intro q hq
  rw [rank, rank, hcentre q hq]

/-- With any other centres the same labels cost no less. -/
theorem meanCost_le (hpoints : ∀ x ∈ points, x.length = dimension)
    (hlength : labels.length = points.length)
    (hcentre : ∀ label ∈ labels, (centreOf label).length = dimension) :
    meanCost points dimension labels ≤ cost points centreOf labels := by
  have hcovered : ∀ q ∈ points.zip labels, q.2 ∈ labels.toFinset :=
    fun q hq => List.mem_toFinset.mpr (List.of_mem_zip hq).2
  rw [meanCost, cost_eq, cost_eq]
  refine Prod.Lex.toLex_mono ⟨?_, le_rfl⟩
  dsimp only
  rw [sum_zip_eq_sum_members
      (fun x label =>
        (Point.squaredDistance x (meanPoint dimension (members points labels label))).value) hcovered,
    sum_zip_eq_sum_members (fun x label => (Point.squaredDistance x (centreOf label)).value) hcovered]
  -- only the distances are left, and each cluster is best served by its own mean
  refine Finset.sum_le_sum ?_
  intro label hlabel
  have hmem := List.mem_toFinset.mp hlabel
  exact sum_squaredDistance_meanPoint_le (members_ne_nil hlength hmem)
    (fun x hx => hpoints x (mem_of_mem_members hx)) (hcentre label hmem)

end

end DelayTuning
