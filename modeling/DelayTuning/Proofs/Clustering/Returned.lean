import DelayTuning.Proofs.Binary64.Squares
import DelayTuning.Proofs.Clustering.Settling

/-!
# The clusterings of doubles

The labels and the centres of a clustering are renewed one after the other, and the rounds end in two ways: they
are used up, or a round leaves all labels as they were. Either way the labels that are returned are those of the
nearest centres among the returned ones, for both the first labels and those of every round belong to the centres
of the same partition. If the rounds have settled, the labels are also those that the centres were made of.

Squared distances of doubles can overflow or be a NaN. What counts as nearest is told by the distances that are
less than infinity; if there are none the label is zero.

## Main definitions

- `FirstLeast`, `IsLabel`: the first least entry of a list of squared distances, the label that they give
- `IsMean`: the mean of points, coordinate by coordinate
- `Returned`: what holds of a clustering that is returned

## Main statements

- `isLabel_nearestCentre`: the nearest centre that is searched for
- `labels_settle`, `exists_previous_of_converged`: labels and centres where the rounds end
- `cluster_returned`: every clustering that is returned
-/

namespace DelayTuning

/-! ### Nearest centres -/

/-- The first least entry of a list of squared distances, which is less than infinity. An entry that is a NaN does
not count. -/
structure FirstLeast (ds : List Float) (i : ℕ) (m : Float) : Prop where
  getElem?_eq : ds[i]? = some m
  lt_infinity : m < infinity
  le_of_mem : ∀ d ∈ ds, d.isNaN = false → m ≤ d
  not_le_before : ∀ j < i, ∀ d, ds[j]? = some d → ¬ d ≤ m

/-- The label that squared distances from the centres give: the index of the first least one, or zero if none is
less than infinity. -/
inductive IsLabel (ds : List Float) : ℕ → Prop
  | least {i : ℕ} {m : Float} (h : FirstLeast ds i m) : IsLabel ds i
  | none (h : ∀ d ∈ ds, ¬ d < infinity) : IsLabel ds 0

namespace FirstLeast

variable {ds : List Float} {i : ℕ} {m d : Float}

theorem lt_length (h : FirstLeast ds i m) : i < ds.length :=
  (List.getElem?_eq_some_iff.mp h.getElem?_eq).1

theorem keep (h : FirstLeast ds i m) (hm : IsSize m) (hd : ¬ d < m) : FirstLeast (ds ++ [d]) i m where
  getElem?_eq := by rw [List.getElem?_append_left h.lt_length, h.getElem?_eq]
  lt_infinity := h.lt_infinity
  le_of_mem := by
    intro e he hnumber
    obtain he | he := List.mem_append.mp he
    · exact h.le_of_mem e he hnumber
    · obtain rfl := List.mem_singleton.mp he
      exact le_of_not_lt_of_isFinite (hm.lt_infinity_iff.mp h.lt_infinity) hnumber hd
  not_le_before := by
    intro j hj e he
    rw [List.getElem?_append_left (hj.trans h.lt_length)] at he
    exact h.not_le_before j hj e he

/-- A distance that is less than all before it that are numbers is the first least one. -/
theorem of_lt (hds : ∀ e ∈ ds, IsSize e) (hd : IsSize d) (hsmall : d < infinity)
    (hless : ∀ e ∈ ds, e.isNaN = false → d < e) : FirstLeast (ds ++ [d]) ds.length d where
  getElem?_eq := by rw [List.getElem?_append_right le_rfl, Nat.sub_self, List.getElem?_cons_zero]
  lt_infinity := hsmall
  le_of_mem := by
    have hd0 : 0.0 ≤ d := hd (isNaN_eq_false_of_lt hsmall).1
    intro e he hnumber
    obtain he | he := List.mem_append.mp he
    · have he0 := hds e he hnumber
      have hlt := hless e he hnumber
      rw [lt_iff_extendedValue_lt hd0 he0] at hlt
      rw [le_iff_extendedValue_le hd0 he0]
      exact hlt.le
    · obtain rfl := List.mem_singleton.mp he
      rw [le_iff_extendedValue_le hd0 hd0]
  not_le_before := by
    have hd0 : 0.0 ≤ d := hd (isNaN_eq_false_of_lt hsmall).1
    intro j hj e he hle
    rw [List.getElem?_append_left hj] at he
    have hmem := List.mem_of_getElem? he
    have hnumber := (isNaN_eq_false_of_le hle).1
    have he0 := hds e hmem hnumber
    have hlt := hless e hmem hnumber
    rw [lt_iff_extendedValue_lt hd0 he0] at hlt
    rw [le_iff_extendedValue_le he0 hd0] at hle
    exact absurd hle (not_le.mpr hlt)

theorem replace (h : FirstLeast ds i m) (hds : ∀ e ∈ ds, IsSize e) (hd : IsSize d) (hdm : d < m) :
    FirstLeast (ds ++ [d]) ds.length d := by
  have hm0 : 0.0 ≤ m := hds m (List.mem_of_getElem? h.getElem?_eq) (isNaN_eq_false_of_lt hdm).2
  have hd0 : 0.0 ≤ d := hd (isNaN_eq_false_of_lt hdm).1
  have hinfinity : 0.0 ≤ infinity := by decide
  have hlt := (lt_iff_extendedValue_lt hd0 hm0).mp hdm
  refine of_lt hds hd ?_ ?_
  · have hsmall := h.lt_infinity
    rw [lt_iff_extendedValue_lt hm0 hinfinity] at hsmall
    rw [lt_iff_extendedValue_lt hd0 hinfinity]
    exact hlt.trans hsmall
  · intro e he hnumber
    have he0 := hds e he hnumber
    have hle := h.le_of_mem e he hnumber
    rw [le_iff_extendedValue_le hm0 he0] at hle
    rw [lt_iff_extendedValue_lt hd0 he0]
    exact hlt.trans_le hle

/-- The first distance that is less than infinity. -/
theorem start (hds : ∀ e ∈ ds, IsSize e) (hlarge : ∀ e ∈ ds, ¬ e < infinity) (hd : IsSize d)
    (hsmall : d < infinity) : FirstLeast (ds ++ [d]) ds.length d := by
  refine of_lt hds hd hsmall ?_
  intro e he hnumber
  have hinfinite : e.isFinite = false := by
    rw [← Bool.not_eq_true, ← (hds e he).lt_infinity_iff]
    exact hlarge e he
  exact (lt_of_unpack_infinity (hd.lt_infinity_iff.mp hsmall)
    (unpack_of_nonneg (hds e he hnumber) hinfinite)).1

end FirstLeast

/-- The squared distances of a point from centres. -/
def distances (x : Point Float) (centres : List (Point Float)) : List Float :=
  centres.map fun centre => Point.squaredDistance x centre

theorem length_distances (x : Point Float) (centres : List (Point Float)) :
    (distances x centres).length = centres.length :=
  List.length_map _

theorem isSize_of_mem_distances {x : Point Float} {centres : List (Point Float)} :
    ∀ d ∈ distances x centres, IsSize d := by
  intro d hd
  obtain ⟨centre, -, rfl⟩ := List.mem_map.mp hd
  exact isSize_squaredDistance x centre

theorem distances_append (x : Point Float) (before : List (Point Float)) (centre : Point Float) :
    distances x (before ++ [centre]) = distances x before ++ [Point.squaredDistance x centre] := by
  rw [distances, List.map_append]
  rfl

/-- The search among the other centres, when the nearest one among those before is known. -/
theorem isLabel_nearestFrom_some {x : Point Float} {before : List (Point Float)} {i : ℕ} {m : Float}
    (h : FirstLeast (distances x before) i m) (rest : List (Point Float)) :
    IsLabel (distances x (before ++ rest)) (nearestFrom x rest before.length (some (i, m))) := by
  induction rest generalizing before i m with
  | nil =>
    rw [List.append_nil]
    exact .least h
  | cons centre rest ih =>
    have hm : IsSize m := isSize_of_mem_distances m (List.mem_of_getElem? h.getElem?_eq)
    have hlength : before.length + 1 = (before ++ [centre]).length := by
      rw [List.length_append, List.length_singleton]
    rw [nearestFrom, List.append_cons, hlength]
    simp only [decide_eq_true_eq]
    split
    · next hlt =>
      refine ih ?_
      have hnext := h.replace isSize_of_mem_distances (isSize_squaredDistance x centre) hlt
      rwa [← distances_append, length_distances] at hnext
    · next hge =>
      refine ih ?_
      rw [distances_append]
      exact h.keep hm hge

/-- The search among the other centres, when none of those before is at a distance less than infinity. -/
theorem isLabel_nearestFrom_none {x : Point Float} {before : List (Point Float)}
    (h : ∀ d ∈ distances x before, ¬ d < infinity) (rest : List (Point Float)) :
    IsLabel (distances x (before ++ rest)) (nearestFrom x rest before.length none) := by
  induction rest generalizing before with
  | nil =>
    rw [List.append_nil]
    exact .none h
  | cons centre rest ih =>
    have hsize := isSize_squaredDistance x centre
    have hlength : before.length + 1 = (before ++ [centre]).length := by
      rw [List.length_append, List.length_singleton]
    have hfinite : Scalar.isFinite (Point.squaredDistance x centre) = true ↔
        Point.squaredDistance x centre < infinity := hsize.lt_infinity_iff.symm
    rw [nearestFrom, List.append_cons, hlength]
    simp only [hfinite]
    split
    · next hsmall =>
      refine isLabel_nearestFrom_some ?_ rest
      have hfirst := FirstLeast.start isSize_of_mem_distances h hsize hsmall
      rwa [← distances_append, length_distances] at hfirst
    · next hlarge =>
      refine ih ?_
      rw [distances_append]
      exact List.forall_mem_append.mpr ⟨h, List.forall_mem_singleton.mpr hlarge⟩

theorem isLabel_nearestCentre (x : Point Float) (centres : List (Point Float)) :
    IsLabel (distances x centres) (nearestCentre x centres) := by
  have hnone : ∀ d ∈ distances x [], ¬ d < infinity := List.forall_mem_nil _
  exact isLabel_nearestFrom_none hnone centres

/-! ### Where the rounds end -/

section Rounds

variable {α : Type} [Scalar α] {points : List (Point α)} {k dimension : ℕ}

/-- The labels are those of the nearest centres of the same partition, wherever the rounds end. -/
theorem labels_settle (rounds done : ℕ) {p : Partition α} (h : p.labels = assign points p.centres) :
    (settle points rounds done p).partition.labels =
      assign points (settle points rounds done p).partition.centres := by
  induction rounds generalizing done p with
  | zero => exact h
  | succ rounds ih =>
    rw [settle]
    split
    · rfl
    · exact ih (done + 1) rfl

/-- Rounds that have settled end with the centres made of the labels that they end with. -/
theorem exists_previous_of_converged (hpoints : ∀ x ∈ points, x.length = dimension) (hk : 0 < k)
    (rounds done : ℕ) {p : Partition α} (h : p.WellFormed points k dimension)
    (hconverged : (settle points rounds done p).converged = true) :
    ∃ q : Partition α, q.WellFormed points k dimension ∧
      (settle points rounds done p).partition.centres = updateCentres points q.labels q.centres ∧
      (settle points rounds done p).partition.labels = q.labels := by
  obtain ⟨n, -, ⟨-, hused⟩ | ⟨-, hsame, hsettled⟩⟩ := settle_cases points rounds done p
  · rw [hused] at hconverged
    cases hconverged
  · refine ⟨(Partition.next points)^[n] p, h.iterate hpoints hk n, ?_, ?_⟩
    · rw [hsettled, Function.iterate_succ_apply']
      rfl
    · rw [hsettled]
      exact hsame

/-- The rounds are counted, and used up unless they have settled. -/
theorem iterations_settle (points : List (Point α)) (rounds : ℕ) (p : Partition α) :
    (settle points rounds 0 p).iterations ≤ rounds ∧
      ((settle points rounds 0 p).converged = false → (settle points rounds 0 p).iterations = rounds) := by
  obtain ⟨n, -, ⟨hn, hused⟩ | ⟨hn, -, hsettled⟩⟩ := settle_cases points rounds 0 p
  · rw [hused, Nat.zero_add]
    exact ⟨hn.le, fun _ => hn⟩
  · rw [hsettled, Nat.zero_add]
    refine ⟨hn, ?_⟩
    intro hconverged
    cases hconverged

/-- The mean of points, coordinate by coordinate: the sum in the order of the points, divided by their number. -/
structure IsMean (dimension : ℕ) (group : List (Point α)) (centre : Point α) : Prop where
  length_eq : centre.length = dimension
  getElem?_eq : ∀ i < dimension, centre[i]? =
    some (group.foldl (fun total x => total + x.getD i 0.0) 0.0 / (group.length : α))

theorem isMean_meanPoint {group : List (Point α)} (h : ∀ x ∈ group, x.length = dimension) :
    IsMean dimension group (meanPoint dimension group) := by
  refine ⟨length_meanPoint h, ?_⟩
  intro i hi
  have hsum : ∀ total : Point α, total.length = dimension → ∀ s, total[i]? = some s →
      (group.foldl (fun total x => List.zipWith (fun s c => s + c) total x) total)[i]? =
        some (group.foldl (fun total x => total + x.getD i 0.0) s) := by
    induction group with
    | nil => exact fun total _ s hs => hs
    | cons x rest ih =>
      obtain ⟨hx, hrest⟩ := List.forall_mem_cons.mp h
      intro total htotal s hs
      have hxi : i < x.length := hx ▸ hi
      rw [List.foldl_cons, List.foldl_cons]
      refine ih hrest _ ?_ _ ?_
      · rw [List.length_zipWith, htotal, hx, Nat.min_self]
      · rw [List.getElem?_zipWith, hs, List.getElem?_eq_getElem hxi, List.getD_eq_getElem _ _ hxi]
  rw [meanPoint, List.getElem?_map, hsum _ List.length_replicate 0.0 (by rw [List.getElem?_replicate, if_pos hi])]
  rfl

/-- The centre of a cluster with members is their mean if the rounds have settled. -/
theorem isMean_of_converged (hpoints : ∀ x ∈ points, x.length = dimension) (hk : 0 < k)
    (rounds done : ℕ) {p : Partition α} (h : p.WellFormed points k dimension)
    (hconverged : (settle points rounds done p).converged = true) {label : ℕ} (hlabel : label < k)
    (hmembers : members points (settle points rounds done p).partition.labels label ≠ []) :
    ∃ centre, (settle points rounds done p).partition.centres[label]? = some centre ∧
      IsMean dimension (members points (settle points rounds done p).partition.labels label) centre := by
  obtain ⟨q, hq, hcentres, hlabels⟩ := exists_previous_of_converged hpoints hk rounds done h hconverged
  rw [hlabels] at hmembers ⊢
  have hlength : label < (updateCentres points q.labels q.centres).length := by
    rw [updateCentres, length_updateFrom, hq.count]
    exact hlabel
  have hmean : (updateCentres points q.labels q.centres).getD label [] =
      meanPoint dimension (members points q.labels label) := by
    have hcount : label < q.centres.length := hq.count.symm ▸ hlabel
    have hlater := getD_updateFrom q.centres dimension 0 [] hcount (Nat.zero_add label ▸ hmembers)
    rw [Nat.zero_add] at hlater
    rw [updateCentres, hq.headD_length hk]
    exact hlater
  refine ⟨meanPoint dimension (members points q.labels label), ?_, ?_⟩
  · rw [hcentres, List.getElem?_eq_getElem hlength, ← hmean, List.getD_eq_getElem _ _ hlength]
  · exact isMean_meanPoint fun x hx => hpoints x (mem_of_mem_members hx)

end Rounds

/-! ### The result -/

/-- What holds of a clustering that is returned, wherever its rounds have ended. -/
structure Returned (config : ClusteringConfig) (points : List (Point Float)) (k dimension : ℕ)
    (c : Clustering Float) : Prop where
  count : c.centres.length = k
  length_eq : ∀ centre ∈ c.centres, centre.length = dimension
  label_lt : ∀ label ∈ c.labels, label < k
  /-- Each point has the label of its nearest centre. -/
  isLabel : List.Forall₂ (fun x label => IsLabel (distances x c.centres) label) points c.labels
  inertia : c.inertia = Scalar.sum (List.zipWith
    (fun x label => Point.squaredDistance x (c.centres.getD label [])) points c.labels)
  iterations_le : c.iterations ≤ config.maxIterations
  iterations_eq : c.converged = false → c.iterations = config.maxIterations
  /-- After rounds that have settled the centres are the means of the clusters. -/
  isMean : c.converged = true → ∀ label < k, members points c.labels label ≠ [] →
    ∃ centre, c.centres[label]? = some centre ∧ IsMean dimension (members points c.labels label) centre

/-- Points can be clustered exactly if at least one cluster is wanted and no more than there are points, and all
points have the same dimension. Every clustering that is returned has as many centres as are wanted, of this
dimension, and for each point the label of its nearest centre among them, whether or not the rounds have settled
before they were used up; and if they have, the centres are the means of the clusters. -/
theorem cluster_returned (config : ClusteringConfig) (points : List (Point Float)) (k : ℕ) :
    ((∃ c, cluster config points k = .ok c) ↔
      0 < k ∧ k ≤ points.length ∧ ∃ dimension, ∀ x ∈ points, x.length = dimension) ∧
    ∀ c dimension, cluster config points k = .ok c → (∀ x ∈ points, x.length = dimension) →
      Returned config points k dimension c := by
  refine ⟨exists_cluster_iff config, ?_⟩
  intro c dimension hc hpoints
  obtain ⟨hk, hle, -⟩ := (exists_cluster_iff config).mp ⟨c, hc⟩
  have hstart := wellFormed_startPartition hpoints hk hle config.seed
  have hshape := wellFormed_settle hpoints hk config.maxIterations 0 hstart
  have hiterations := iterations_settle points config.maxIterations (startPartition config.seed points k)
  have hassigned : (startPartition config.seed points k).labels =
      assign points (startPartition config.seed points k).centres := rfl
  have hlabels := labels_settle config.maxIterations 0 hassigned
  rw [cluster_eq_ok config hpoints hk hle] at hc
  cases hc
  refine ⟨hshape.count, hshape.dimension, hshape.bounded, ?_, rfl, hiterations.1, hiterations.2, ?_⟩
  · dsimp only
    rw [hlabels, assign, List.forall₂_map_right_iff, List.forall₂_same]
    exact fun x _ => isLabel_nearestCentre x _
  · intro hconverged label hlabel hmembers
    exact isMean_of_converged hpoints hk config.maxIterations 0 hstart hconverged hlabel hmembers

/-- Two points with an infinite squared distance, and one that is a NaN. -/
def farPoints : List (Point Float) := [[0.0], [1e200], [0.0 / 0.0]]

theorem farPoints_returned :
    ∃ c, cluster .standard farPoints 2 = .ok c ∧ Returned .standard farPoints 2 1 c := by
  have hpoints : ∀ x ∈ farPoints, x.length = 1 := by decide
  obtain ⟨hiff, hreturned⟩ := cluster_returned .standard farPoints 2
  obtain ⟨c, hc⟩ := hiff.mpr ⟨by decide, by decide, 1, hpoints⟩
  exact ⟨c, hc, hreturned c 1 hc hpoints⟩

end DelayTuning
