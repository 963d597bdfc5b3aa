import DelayTuning.Clustering.KMeans
import DelayTuning.Proofs.Random.Draw
import Mathlib

/-!
# Well-formed clusterings

Whatever the scalars do, the rounds of a clustering keep its shape. The first centres stand at positions of
points, every round has as many centres as the first one, all of the dimension of the points, and every point
has the number of a cluster as its label. So a clustering that is wanted of enough points of one dimension
comes about, and it is well-formed wherever its rounds have ended.

## Main definitions

- `Partition.WellFormed`: the shape of centres and labels
- `Clustering.partition`: the centres and labels of a result

## Main statements

- `lt_of_mem_startPositions`, `length_startPositions`: the positions of the first centres
- `nearestCentre_lt`: a label is the number of a centre
- `getD_updateFrom`: new centres are means
- `forall_mem_updateFrom`, `forall_mem_centres`: what holds of the points and of their means holds of all
  centres
- `Partition.WellFormed.next`, `wellFormed_settle`: what a round keeps, and where the rounds end
- `exists_cluster_iff`: the points that can be clustered
- `cluster_eq_ok`, `exists_cluster`: enough points have a clustering, and it is well-formed
-/

namespace DelayTuning

variable {α : Type} [Scalar α]

/-! ### The first centres -/

theorem largestFrom_cases (xs : List α) (i best : ℕ) (value : α) :
    (largestFrom xs i best value).1 = best ∨
      (i ≤ (largestFrom xs i best value).1 ∧ (largestFrom xs i best value).1 < i + xs.length) := by
  induction xs generalizing i best value with
  | nil => exact Or.inl rfl
  | cons x rest ih =>
    rw [largestFrom, List.length_cons]
    split
    · obtain hbest | ⟨hle, hlt⟩ := ih (i + 1) i x
      · right
        omega
      · right
        omega
    · obtain hbest | ⟨hle, hlt⟩ := ih (i + 1) best value
      · exact Or.inl hbest
      · right
        omega

theorem lt_of_largest? {xs : List α} {pick : ℕ} {value : α} (h : largest? xs = some (pick, value)) :
    pick < xs.length := by
  cases xs with
  | nil => cases h
  | cons x rest =>
    have hpick : (largestFrom rest 1 0 x).1 = pick := congrArg Prod.fst (Option.some.inj h)
    have hcases := largestFrom_cases rest 1 0 x
    rw [hpick] at hcases
    rw [List.length_cons]
    omega

/-- The next centre stands at the position of a point. -/
theorem nextPosition_lt {nearest : List α} (h : nearest ≠ []) (chosen : List ℕ) :
    nextPosition nearest chosen < nearest.length := by
  rw [nextPosition]
  cases hlargest : largest? nearest with
  | none =>
    cases nearest with
    | nil => exact absurd rfl h
    | cons x rest => cases hlargest
  | some found =>
    obtain ⟨pick, distance⟩ := found
    have hpick := lt_of_largest? hlargest
    simp only
    split
    · cases hfind : (List.range nearest.length).find? fun i => !chosen.contains i with
      | none => exact hpick
      | some i => exact List.mem_range.mp (List.mem_of_find?_eq_some hfind)
    · exact hpick

theorem length_extendPositions (points : List (Point α)) (count : ℕ) (nearest : List α)
    (chosen : List ℕ) :
    (extendPositions points count nearest chosen).length = chosen.length + count := by
  induction count generalizing nearest chosen with
  | zero => rfl
  | succ count ih =>
    rw [extendPositions, ih, List.length_append, List.length_singleton]
    omega

theorem lt_of_mem_extendPositions {points : List (Point α)} (hpoints : points ≠ []) {count : ℕ}
    {nearest : List α} (hnearest : nearest.length = points.length) {chosen : List ℕ}
    (hchosen : ∀ i ∈ chosen, i < points.length) :
    ∀ i ∈ extendPositions points count nearest chosen, i < points.length := by
  induction count generalizing nearest chosen with
  | zero => exact hchosen
  | succ count ih =>
    have hne : nearest ≠ [] := List.ne_nil_of_length_pos
      (hnearest ▸ List.length_pos_of_ne_nil hpoints)
    rw [extendPositions]
    refine ih ?_ ?_
    · rw [List.length_zipWith, hnearest, Nat.min_self]
    · intro i hi
      obtain hi | hi := List.mem_append.mp hi
      · exact hchosen i hi
      · obtain rfl := List.mem_singleton.mp hi
        exact hnearest ▸ nextPosition_lt hne chosen

theorem length_startPositions (seed : UInt64) (points : List (Point α)) {k : ℕ} (hk : 0 < k) :
    (startPositions seed points k).length = k := by
  rw [startPositions, length_extendPositions, List.length_singleton]
  omega

theorem lt_of_mem_startPositions (seed : UInt64) {points : List (Point α)} (hpoints : points ≠ [])
    (k : ℕ) : ∀ i ∈ startPositions seed points k, i < points.length := by
  refine lt_of_mem_extendPositions hpoints (List.length_map _) ?_
  intro i hi
  obtain rfl := List.mem_singleton.mp hi
  exact Generator.below_lt (List.length_pos_of_ne_nil hpoints) _

/-! ### Labels -/

theorem nearestFrom_lt (x : Point α) (centres : List (Point α)) {i : ℕ} {best : Option (ℕ × α)}
    (hbest : ∀ found ∈ best, found.1 < i) (hpos : 0 < i + centres.length) :
    nearestFrom x centres i best < i + centres.length := by
  induction centres generalizing i best with
  | nil =>
    rw [nearestFrom]
    cases best with
    | none => exact hpos
    | some found => exact hbest found rfl
  | cons centre rest ih =>
    have hupdate : ∀ (closer : Bool) (d : α),
        ∀ found ∈ (if closer then some (i, d) else best), found.1 < i + 1 := by
      intro closer d found hfound
      cases closer with
      | true =>
        obtain rfl := Option.mem_some_iff.mp hfound
        exact Nat.lt_succ_self i
      | false => exact Nat.lt_succ_of_lt (hbest found hfound)
    rw [nearestFrom.eq_def, List.length_cons, Nat.add_comm rest.length, ← Nat.add_assoc]
    exact ih (hupdate _ _) (by omega)

/-- A label is the number of a centre. -/
theorem nearestCentre_lt (x : Point α) {centres : List (Point α)} (h : centres ≠ []) :
    nearestCentre x centres < centres.length := by
  have hpos : 0 < 0 + centres.length := by simpa using List.length_pos_of_ne_nil h
  have hlt : nearestFrom x centres 0 none < 0 + centres.length := nearestFrom_lt x centres (by simp) hpos
  rwa [Nat.zero_add] at hlt

/-! ### Centres -/

omit [Scalar α] in
theorem mem_of_mem_members {points : List (Point α)} {labels : List ℕ} {label : ℕ} {x : Point α}
    (h : x ∈ members points labels label) : x ∈ points := by
  obtain ⟨⟨y, l⟩, hmem, rfl⟩ := List.mem_map.mp h
  exact (List.of_mem_zip (List.mem_filter.mp hmem).1).1

omit [Scalar α] in
/-- A label that a point has is that of a cluster with members. -/
theorem members_ne_nil {points : List (Point α)} {labels : List ℕ}
    (hlength : labels.length = points.length) {label : ℕ} (h : label ∈ labels) :
    members points labels label ≠ [] := by
  have hlabels : (points.zip labels).map Prod.snd = labels := List.map_snd_zip hlength.le
  rw [← hlabels] at h
  obtain ⟨q, hq, rfl⟩ := List.mem_map.mp h
  have hmem : q.1 ∈ members points labels q.2 :=
    List.mem_map_of_mem (List.mem_filter.mpr ⟨hq, beq_self_eq_true q.2⟩)
  exact List.ne_nil_of_mem hmem

/-- The mean of points of one dimension has this dimension. -/
theorem length_meanPoint {dimension : ℕ} {points : List (Point α)}
    (h : ∀ x ∈ points, x.length = dimension) : (meanPoint dimension points).length = dimension := by
  have hsum : ∀ (total : Point α), total.length = dimension →
      (points.foldl (fun total x => List.zipWith (fun s c => s + c) total x) total).length =
        dimension := by
    induction points with
    | nil => exact fun _ htotal => htotal
    | cons x rest ih =>
      intro total htotal
      refine ih (fun y hy => h y (List.mem_cons_of_mem x hy)) _ ?_
      rw [List.length_zipWith, htotal, h x List.mem_cons_self, Nat.min_self]
  rw [meanPoint, List.length_map]
  exact hsum _ List.length_replicate

theorem fartherOf_cases (best : Option (ℕ × α)) (i : ℕ) (d : α) :
    fartherOf best i d = best ∨ fartherOf best i d = some (i, d) := by
  rw [fartherOf.eq_def]
  split
  · split
    · exact Or.inl rfl
    · exact Or.inr rfl
  · exact Or.inr rfl

omit [Scalar α] in
/-- A search that keeps what it has found or takes the next candidate finds one of the candidates. -/
theorem mem_of_foldl_choice {γ : Type} {choose : Option (ℕ × α) → γ → Option (ℕ × α)}
    (index : γ → ℕ) (hchoose : ∀ best c, choose best c = best ∨ ∃ d, choose best c = some (index c, d))
    (candidates : List γ) (best : Option (ℕ × α)) :
    ∀ found ∈ candidates.foldl choose best, found ∈ best ∨ found.1 ∈ candidates.map index := by
  induction candidates generalizing best with
  | nil => exact fun _ hfound => Or.inl hfound
  | cons c rest ih =>
    intro found hfound
    rw [List.map_cons, List.mem_cons]
    obtain hbest | hlater := ih _ found hfound
    · obtain hkept | ⟨d, htaken⟩ := hchoose best c
      · exact Or.inl (hkept ▸ hbest)
      · rw [htaken] at hbest
        obtain rfl := Option.mem_some_iff.mp hbest
        exact Or.inr (Or.inl rfl)
    · exact Or.inr (Or.inr hlater)

/-- The point that an empty cluster takes is one of the points. -/
theorem lt_of_farthestPosition? {points : List (Point α)} {labels : List ℕ}
    {centres : List (Point α)} {taken : List ℕ} {i : ℕ}
    (h : farthestPosition? points labels centres taken = some i) : i < points.length := by
  obtain ⟨found, hfound, rfl⟩ := Option.map_eq_some_iff.mp h
  obtain hnone | hmem := mem_of_foldl_choice Prod.snd
    (fun best c => (fartherOf_cases best c.2 _).imp_right fun htaken => ⟨_, htaken⟩) _ none found hfound
  · cases hnone
  · obtain ⟨candidate, hcandidate, hindex⟩ := List.mem_map.mp hmem
    have hlt := List.snd_lt_of_mem_zipIdx (List.mem_filter.mp hcandidate).1
    rw [Nat.add_zero, List.length_zip] at hlt
    exact hindex ▸ Nat.lt_of_lt_of_le hlt (Nat.min_le_left _ _)

theorem length_updateFrom (points : List (Point α)) (labels : List ℕ) (centres : List (Point α))
    (dimension : ℕ) (previous : List (Point α)) (label : ℕ) (taken : List ℕ) :
    (updateFrom points labels centres dimension previous label taken).length = previous.length := by
  induction previous generalizing label taken with
  | nil => rfl
  | cons centre rest ih =>
    rw [updateFrom, List.length_cons]
    split
    · split
      · rw [List.length_cons, ih]
      · rw [List.length_cons, ih]
    · rw [List.length_cons, ih]

/-- The new centre of a cluster with members is their mean. -/
theorem getD_updateFrom {points : List (Point α)} {labels : List ℕ} (centres : List (Point α))
    (dimension : ℕ) {previous : List (Point α)} (label : ℕ) (taken : List ℕ) {j : ℕ}
    (hj : j < previous.length)
    (hmembers : members points labels (label + j) ≠ []) :
    (updateFrom points labels centres dimension previous label taken).getD j [] =
      meanPoint dimension (members points labels (label + j)) := by
  induction previous generalizing label taken j with
  | nil => exact absurd hj (Nat.not_lt_zero j)
  | cons centre rest ih =>
    rw [updateFrom]
    cases j with
    | zero =>
      split
      · next hnone => exact absurd hnone hmembers
      · rfl
    | succ j =>
      have hlater := fun taken => ih (label + 1) taken (Nat.lt_of_succ_lt_succ hj)
        (by rwa [Nat.add_assoc, Nat.add_comm 1])
      rw [Nat.add_assoc, Nat.add_comm 1] at hlater
      split
      · split
        · exact hlater _
        · exact hlater _
      · exact hlater _

/-- What holds of the points, of the means of the clusters and of the previous centres holds of the new
    centres, wherever empty clusters go. -/
theorem forall_mem_updateFrom {P : Point α → Prop} {points : List (Point α)} {labels : List ℕ}
    {dimension : ℕ} (hpoints : ∀ x ∈ points, P x)
    (hmean : ∀ label, members points labels label ≠ [] →
      P (meanPoint dimension (members points labels label)))
    (centres : List (Point α)) {previous : List (Point α)}
    (hprevious : ∀ c ∈ previous, P c) (label : ℕ) (taken : List ℕ) :
    ∀ c ∈ updateFrom points labels centres dimension previous label taken, P c := by
  induction previous generalizing label taken with
  | nil => simp [updateFrom]
  | cons centre rest ih =>
    have hrest := fun d hd => hprevious d (List.mem_cons_of_mem centre hd)
    rw [updateFrom]
    split
    · split
      · next i hfarthest =>
        have hi := lt_of_farthestPosition? hfarthest
        have htaken : P (points.getD i []) := by
          rw [List.getD_eq_getElem _ _ hi]
          exact hpoints _ (List.getElem_mem hi)
        exact List.forall_mem_cons.mpr ⟨htaken, ih hrest _ _⟩
      · exact List.forall_mem_cons.mpr ⟨hprevious centre List.mem_cons_self, ih hrest _ _⟩
    · next hne => exact List.forall_mem_cons.mpr ⟨hmean label hne, ih hrest _ _⟩

/-! ### The rounds -/

/-- The shape of a partition of points into `k` clusters. -/
structure Partition.WellFormed (points : List (Point α)) (k dimension : ℕ) (p : Partition α) :
    Prop where
  count : p.centres.length = k
  dimension : ∀ c ∈ p.centres, c.length = dimension
  labels : p.labels.length = points.length
  bounded : ∀ label ∈ p.labels, label < k

section

variable {points : List (Point α)} {k dimension : ℕ}

/-- Any centres with the labels of their nearest points. -/
theorem wellFormed_assign (hk : 0 < k) {centres : List (Point α)} (hcount : centres.length = k)
    (hdimension : ∀ c ∈ centres, c.length = dimension) :
    Partition.WellFormed points k dimension ⟨centres, assign points centres⟩ where
  count := hcount
  dimension := hdimension
  labels := List.length_map _
  bounded := by
    intro label hlabel
    obtain ⟨x, -, rfl⟩ := List.mem_map.mp hlabel
    exact hcount ▸ nearestCentre_lt x (List.ne_nil_of_length_pos (hcount ▸ hk))

/-- The first centres are points. -/
theorem mem_of_mem_startPartition (hpoints : points ≠ []) (seed : UInt64) (k : ℕ) :
    ∀ c ∈ (startPartition seed points k).centres, c ∈ points := by
  intro c hc
  obtain ⟨i, hi, rfl⟩ := List.mem_map.mp hc
  have hlt := lt_of_mem_startPositions seed hpoints k i hi
  rw [List.getD_eq_getElem _ _ hlt]
  exact List.getElem_mem hlt

theorem wellFormed_startPartition (hpoints : ∀ x ∈ points, x.length = dimension) (hk : 0 < k)
    (hle : k ≤ points.length) (seed : UInt64) :
    (startPartition seed points k).WellFormed points k dimension := by
  have hne : points ≠ [] := List.ne_nil_of_length_pos (Nat.lt_of_lt_of_le hk hle)
  refine wellFormed_assign hk ?_ ?_
  · rw [pointsAt, List.length_map, length_startPositions seed points hk]
  · exact fun c hc => hpoints c (mem_of_mem_startPartition hne seed k c hc)

omit [Scalar α] in
/-- The dimension that a round reads off the first centre. -/
theorem Partition.WellFormed.headD_length {p : Partition α} (h : p.WellFormed points k dimension)
    (hk : 0 < k) : (p.centres.headD []).length = dimension := by
  have hne : p.centres ≠ [] := List.ne_nil_of_length_pos (h.count ▸ hk)
  obtain ⟨c, rest, hcentres⟩ := List.exists_cons_of_ne_nil hne
  have hc := h.dimension c (hcentres ▸ List.mem_cons_self)
  rw [hcentres]
  exact hc

/-- What holds of the points, of the means of the clusters and of the centres holds of the centres after a
    round. -/
theorem Partition.WellFormed.forall_mem_next {P : Point α → Prop} {p : Partition α}
    (h : p.WellFormed points k dimension) (hk : 0 < k) (hpoints : ∀ x ∈ points, P x)
    (hmean : ∀ label, members points p.labels label ≠ [] →
      P (meanPoint dimension (members points p.labels label)))
    (hcentres : ∀ c ∈ p.centres, P c) : ∀ c ∈ (p.next points).centres, P c := by
  rw [Partition.next, updateCentres, h.headD_length hk]
  exact forall_mem_updateFrom hpoints hmean p.centres hcentres 0 []

/-- A round keeps the shape. -/
theorem Partition.WellFormed.next {p : Partition α} (h : p.WellFormed points k dimension)
    (hpoints : ∀ x ∈ points, x.length = dimension) (hk : 0 < k) :
    (p.next points).WellFormed points k dimension := by
  refine wellFormed_assign hk ?_ ?_
  · rw [updateCentres, length_updateFrom, h.count]
  · refine h.forall_mem_next hk hpoints ?_ h.dimension
    exact fun _ _ => length_meanPoint fun x hx => hpoints x (mem_of_mem_members hx)

/-- The rounds end with a well-formed partition, wherever they end. -/
theorem wellFormed_settle (hpoints : ∀ x ∈ points, x.length = dimension) (hk : 0 < k)
    (rounds done : ℕ) {p : Partition α} (h : p.WellFormed points k dimension) :
    (settle points rounds done p).partition.WellFormed points k dimension := by
  induction rounds generalizing done p with
  | zero => exact h
  | succ rounds ih =>
    have hnext := h.next hpoints hk
    rw [settle]
    split
    · exact hnext
    · exact ih (done + 1) hnext

/-- What holds of the points, of the means of points and of the centres holds of the centres where the
    rounds end. -/
theorem forall_mem_settle {P : Point α → Prop} (hk : 0 < k)
    (hpoints : ∀ x ∈ points, x.length = dimension) (hpoint : ∀ x ∈ points, P x)
    (hmean : ∀ group ≠ [], (∀ x ∈ group, x ∈ points) → P (meanPoint dimension group))
    (rounds done : ℕ) {p : Partition α} (h : p.WellFormed points k dimension)
    (hcentres : ∀ c ∈ p.centres, P c) : ∀ c ∈ (settle points rounds done p).partition.centres, P c := by
  induction rounds generalizing done p with
  | zero => exact hcentres
  | succ rounds ih =>
    have hnext := h.forall_mem_next hk hpoint
      (fun _ hne => hmean _ hne fun _ hx => mem_of_mem_members hx) hcentres
    rw [settle]
    split
    · exact hnext
    · exact ih (done + 1) (h.next hpoints hk) hnext

/-! ### The result -/

omit [Scalar α] in
/-- Why points of one dimension cannot be clustered: none or too many clusters are wanted. -/
theorem clusteringFault?_eq (hpoints : ∀ x ∈ points, x.length = dimension) (k : ℕ) :
    clusteringFault? points k =
      if k = 0 then some (.invalidRequest .noClusters)
      else if points.length < k then some (.insufficientData points.length k)
      else none := by
  have hnone : (points.find? fun x => x.length != (points.headD []).length) = none := by
    rw [List.find?_eq_none]
    intro x hx
    obtain ⟨first, rest, rfl⟩ := List.exists_cons_of_ne_nil (List.ne_nil_of_mem hx)
    have hfirst := hpoints first List.mem_cons_self
    simp [hpoints x hx, hfirst]
  rw [clusteringFault?]
  simp only [hnone, Option.map_none]

omit [Scalar α] in
theorem clusteringFault?_eq_none_iff {points : List (Point α)} {k : ℕ} :
    clusteringFault? points k = none ↔
      0 < k ∧ k ≤ points.length ∧ ∃ dimension, ∀ x ∈ points, x.length = dimension := by
  constructor
  · intro h
    rw [clusteringFault?] at h
    split at h
    · cases h
    split at h
    · cases h
    next hk hle =>
    refine ⟨Nat.pos_of_ne_zero hk, not_lt.mp hle, (points.headD []).length, ?_⟩
    intro x hx
    have hfind := List.find?_eq_none.mp (Option.map_eq_none_iff.mp h) x hx
    simpa using hfind
  · rintro ⟨hk, hle, dimension, hpoints⟩
    rw [clusteringFault?_eq hpoints, if_neg hk.ne', if_neg (not_lt.mpr hle)]

/-- The points that can be clustered. -/
theorem exists_cluster_iff (config : ClusteringConfig) {points : List (Point α)} {k : ℕ} :
    (∃ c, cluster config points k = .ok c) ↔
      0 < k ∧ k ≤ points.length ∧ ∃ dimension, ∀ x ∈ points, x.length = dimension := by
  rw [← clusteringFault?_eq_none_iff, cluster]
  cases clusteringFault? points k with
  | none => exact iff_of_true ⟨_, rfl⟩ rfl
  | some e =>
    refine iff_of_false ?_ (fun h => by cases h)
    rintro ⟨c, hc⟩
    cases hc

/-- The centres and labels that a clustering ends with. -/
def Clustering.partition (c : Clustering α) : Partition α := ⟨c.centres, c.labels⟩

/-- The clustering of enough points of one dimension, where its rounds have ended. -/
theorem cluster_eq_ok (config : ClusteringConfig) (hpoints : ∀ x ∈ points, x.length = dimension)
    (hk : 0 < k) (hle : k ≤ points.length) :
    cluster config points k =
      let settled := settle points config.maxIterations 0 (startPartition config.seed points k)
      .ok {
        centres := settled.partition.centres
        labels := settled.partition.labels
        iterations := settled.iterations
        converged := settled.converged
        inertia := inertia points settled.partition
        precision := config.precision } := by
  have hfault : clusteringFault? points k = none := by
    rw [clusteringFault?_eq hpoints, if_neg (Nat.ne_of_gt hk), if_neg (Nat.not_lt.mpr hle)]
  rw [cluster, hfault]

/-- Enough points of one dimension have a clustering, and it is well-formed. -/
theorem exists_cluster (config : ClusteringConfig) (hpoints : ∀ x ∈ points, x.length = dimension)
    (hk : 0 < k) (hle : k ≤ points.length) :
    ∃ c, cluster config points k = .ok c ∧ c.partition.WellFormed points k dimension ∧
      c.precision = config.precision := by
  have hstart := wellFormed_startPartition hpoints hk hle config.seed
  rw [cluster_eq_ok config hpoints hk hle]
  exact ⟨_, rfl, wellFormed_settle hpoints hk config.maxIterations 0 hstart, rfl⟩

/-- What holds of the points and of the means of points holds of every centre that is returned. -/
theorem forall_mem_centres {P : Point α → Prop} {config : ClusteringConfig} {c : Clustering α}
    (hpoints : ∀ x ∈ points, x.length = dimension) (hpoint : ∀ x ∈ points, P x)
    (hmean : ∀ group ≠ [], (∀ x ∈ group, x ∈ points) → P (meanPoint dimension group))
    (hc : cluster config points k = .ok c) : ∀ centre ∈ c.centres, P centre := by
  obtain ⟨hk, hle, -⟩ := (exists_cluster_iff config).mp ⟨c, hc⟩
  have hne : points ≠ [] := List.ne_nil_of_length_pos (Nat.lt_of_lt_of_le hk hle)
  have hstart := wellFormed_startPartition hpoints hk hle config.seed
  have hfirst : ∀ centre ∈ (startPartition config.seed points k).centres, P centre :=
    fun centre hcentre => hpoint centre (mem_of_mem_startPartition hne config.seed k centre hcentre)
  rw [cluster_eq_ok config hpoints hk hle] at hc
  obtain rfl := Except.ok.inj hc
  exact forall_mem_settle hk hpoints hpoint hmean config.maxIterations 0 hstart hfirst

end

end DelayTuning
