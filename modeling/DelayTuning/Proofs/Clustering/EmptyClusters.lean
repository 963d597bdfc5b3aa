import DelayTuning.Proofs.Clustering.Farthest
import DelayTuning.Proofs.Clustering.Returned

/-!
# Empty clusters

In every round a cluster without members takes over a point: the first one, among the positions that no empty
cluster before it has taken, that is farthest from the centre of its own cluster. There is always such a position,
since there are no more clusters than points, so no cluster is left with its previous centre. The distances can be
compared, for a centre of finite points never has a NaN in it: a sum may overflow, but then it is infinite, and the
count that it is divided by is not zero.

## Main definitions

- `emptyClusters`: the clusters without members
- `ownDistance`, `IsFarthestFree`: how far a point is from the centre of its cluster, and the point taken over

## Main statements

- `exists_farthestPosition?`: a point to take over
- `exists_takenOver`: the points that empty clusters take over
- `numberPoint_iterate`: no centre has a NaN in it
- `Partition.WellFormed.exists_mean_updateCentres`, `Partition.WellFormed.exists_positions`: the clusters with and
  without members in a round
- `partition_settle`: where the rounds lead to
- `updateCentres_fills`: the centres of every round
-/

namespace DelayTuning

/-! ### The point that is taken over -/

/-- The squared distance of a point from the centre of its own cluster. -/
def ownDistance (points : List (Point Float)) (p : Partition Float) (i : ℕ) : Float :=
  Point.squaredDistance (points.getD i []) (p.centres.getD (p.labels.getD i 0) [])

/-- Of the positions that are not taken, the first one of a point that is farthest from the centre of its own
cluster. -/
structure IsFarthestFree (points : List (Point Float)) (p : Partition Float) (taken : List ℕ) (i : ℕ) : Prop where
  lt_length : i < points.length
  notMem : i ∉ taken
  le : ∀ j < points.length, j ∉ taken → ownDistance points p j ≤ ownDistance points p i
  lt_before : ∀ j < i, j ∉ taken → ownDistance points p j < ownDistance points p i

theorem IsFarthestFree.congr {points : List (Point Float)} {p : Partition Float} {taken taken' : List ℕ} {i : ℕ}
    (h : IsFarthestFree points p taken i) (hmem : ∀ j, j ∈ taken ↔ j ∈ taken') :
    IsFarthestFree points p taken' i where
  lt_length := h.lt_length
  notMem := fun hi => h.notMem ((hmem i).mpr hi)
  le := fun j hj hfree => h.le j hj fun htaken => hfree ((hmem j).mp htaken)
  lt_before := fun j hj hfree => h.lt_before j hj fun htaken => hfree ((hmem j).mp htaken)

/-- A list in which no element is one of those before it has no duplicates. -/
theorem nodup_of_notMem_take {α : Type} {l : List α} (h : ∀ t a, l[t]? = some a → a ∉ l.take t) : l.Nodup := by
  refine List.pairwise_iff_getElem.mpr fun i j hi hj hij heq => ?_
  refine h j l[j] (List.getElem?_eq_getElem hj) ?_
  rw [← heq]
  exact List.mem_take_iff_getElem.mpr ⟨i, lt_min hij hi, rfl⟩

/-- The points with their labels and positions that are not taken. -/
def freePoints (points : List (Point Float)) (labels taken : List ℕ) : List ((Point Float × ℕ) × ℕ) :=
  (points.zip labels).zipIdx.filter fun (_, i) => !taken.contains i

theorem pairwise_freePoints (points : List (Point Float)) (labels taken : List ℕ) :
    (freePoints points labels taken).Pairwise fun c d => c.2 < d.2 := by
  refine List.Pairwise.filter _ (List.pairwise_iff_getElem.mpr ?_)
  intro i j hi hj hij
  simpa using hij

theorem mem_freePoints_iff {points : List (Point Float)} {labels taken : List ℕ} {x : Point Float} {label i : ℕ} :
    ((x, label), i) ∈ freePoints points labels taken ↔
      points[i]? = some x ∧ labels[i]? = some label ∧ i ∉ taken := by
  rw [freePoints, List.mem_filter, List.mem_zipIdx_iff_getElem?, List.getElem?_zip_eq_some]
  simp [and_assoc]

section TakenOver

variable {points : List (Point Float)} {p : Partition Float} {taken : List ℕ}

/-- How far a free point is from the centre of its own cluster. -/
def freeDistance (p : Partition Float) (c : (Point Float × ℕ) × ℕ) : Float :=
  Point.squaredDistance c.1.1 (p.centres.getD c.1.2 [])

theorem freeDistance_eq {c : (Point Float × ℕ) × ℕ} (h : c ∈ freePoints points p.labels taken) :
    freeDistance p c = ownDistance points p c.2 := by
  obtain ⟨hx, hlabel, -⟩ := mem_freePoints_iff.mp h
  have hx' : points.getD c.2 [] = c.1.1 := by rw [List.getD_eq_getElem?_getD, hx, Option.getD_some]
  have hlabel' : p.labels.getD c.2 0 = c.1.2 := by rw [List.getD_eq_getElem?_getD, hlabel, Option.getD_some]
  rw [freeDistance, ownDistance, hx', hlabel']

variable (hlength : p.labels.length = points.length) (hpoints : ∀ x ∈ points, FinitePoint x)
  (hcentres : ∀ c ∈ p.centres, NumberPoint c)

include hlength in
theorem exists_mem_freePoints {i : ℕ} (hi : i < points.length) (hfree : i ∉ taken) :
    ∃ c ∈ freePoints points p.labels taken, c.2 = i := by
  have hlabel : i < p.labels.length := hlength ▸ hi
  exact ⟨((points[i], p.labels[i]), i), mem_freePoints_iff.mpr
    ⟨List.getElem?_eq_getElem hi, List.getElem?_eq_getElem hlabel, hfree⟩, rfl⟩

include hpoints hcentres in
variable (taken) in
theorem freeDistance_nonneg : ∀ c ∈ freePoints points p.labels taken, 0.0 ≤ freeDistance p c := by
  intro c hc
  obtain ⟨hx, -, -⟩ := mem_freePoints_iff.mp hc
  refine squaredDistance_nonneg (hpoints _ (List.mem_of_getElem? hx)) ?_
  rw [List.getD_eq_getElem?_getD]
  cases hcentre : p.centres[c.1.2]? with
  | none => exact List.forall_mem_nil _
  | some centre => exact hcentres centre (List.mem_of_getElem? hcentre)

include hlength hpoints hcentres

/-- The first greatest of the free points by distance is the point that is taken over. -/
theorem isFarthestFree_of_leads {front back : List ((Point Float × ℕ) × ℕ)} {c : (Point Float × ℕ) × ℕ}
    (hsplit : freePoints points p.labels taken = front ++ c :: back)
    (hleads : Leads (freeDistance p) front c back) : IsFarthestFree points p taken c.2 := by
  have hordered := hsplit ▸ pairwise_freePoints points p.labels taken
  have hsizes := hsplit ▸ freeDistance_nonneg taken hpoints hcentres
  have hc : c ∈ freePoints points p.labels taken := hsplit ▸ by simp
  obtain ⟨hx, -, hfree⟩ := mem_freePoints_iff.mp hc
  have hlt : c.2 < points.length := (List.getElem?_eq_some_iff.mp hx).1
  refine ⟨hlt, hfree, ?_, ?_⟩
  · intro j hj hjfree
    obtain ⟨d, hd, rfl⟩ := exists_mem_freePoints hlength hj hjfree
    rw [← freeDistance_eq hd, ← freeDistance_eq hc]
    exact hleads.le_of_mem hsizes d (hsplit ▸ hd)
  · intro j hj hjfree
    obtain ⟨d, hd, rfl⟩ := exists_mem_freePoints hlength (hj.trans hlt) hjfree
    rw [← freeDistance_eq hd, ← freeDistance_eq hc]
    refine hleads.lt_of_mem_front d ?_
    -- The free points are in the order of their positions, so one before this position is in front.
    obtain hfront | hrest := List.mem_append.mp (hsplit ▸ hd)
    · exact hfront
    · obtain rfl | hback := List.mem_cons.mp hrest
      · exact absurd hj (lt_irrefl _)
      · have hafter := List.rel_of_pairwise_cons (List.pairwise_append.mp hordered).2.1 hback
        exact absurd hj hafter.not_gt

variable (taken) in
/-- As long as not all positions are taken there is a point to take over. -/
theorem exists_farthestPosition? (henough : taken.length < points.length) :
    ∃ i, farthestPosition? points p.labels p.centres taken = some i ∧ IsFarthestFree points p taken i := by
  have hsearch : farthestPosition? points p.labels p.centres taken =
      ((freePoints points p.labels taken).foldl
        (fun best c => fartherOf best c.2 (freeDistance p c)) none).map Prod.fst := rfl
  cases hfree : freePoints points p.labels taken with
  | nil =>
    obtain ⟨j, hj, hnotMem⟩ := exists_lt_notMem henough
    obtain ⟨c, hc, -⟩ := exists_mem_freePoints hlength hj hnotMem
    rw [hfree] at hc
    cases hc
  | cons first rest =>
    have hsizes := freeDistance_nonneg taken hpoints hcentres
    rw [hfree] at hsizes
    obtain ⟨front, c, back, hsplit, hleads, hfound⟩ :=
      leads_foldl_fartherOf Prod.snd (freeDistance p) (Leads.singleton (freeDistance p) first) hsizes
    refine ⟨c.2, ?_, isFarthestFree_of_leads hlength hpoints hcentres (hfree.trans hsplit) hleads⟩
    rw [hsearch, hfree, List.foldl_cons]
    exact congrArg (Option.map Prod.fst) hfound

end TakenOver

/-! ### All empty clusters -/

section Empty

variable {α : Type} (points : List (Point α)) (labels : List ℕ)

/-- The clusters without members among `count` clusters from `first` on, in increasing order. -/
def emptyClusters (first count : ℕ) : List ℕ :=
  (List.range' first count).filter fun label => (members points labels label).isEmpty

variable {points labels} {first count label : ℕ}

theorem emptyClusters_succ_of_nil (h : members points labels first = []) :
    emptyClusters points labels first (count + 1) = first :: emptyClusters points labels (first + 1) count := by
  rw [emptyClusters, List.range'_succ, List.filter_cons_of_pos (by rw [h]; rfl), emptyClusters]

theorem emptyClusters_succ_of_ne (h : members points labels first ≠ []) :
    emptyClusters points labels first (count + 1) = emptyClusters points labels (first + 1) count := by
  rw [emptyClusters, List.range'_succ, List.filter_cons_of_neg (by simpa using h), emptyClusters]

theorem mem_emptyClusters_iff :
    label ∈ emptyClusters points labels first count ↔
      (first ≤ label ∧ label < first + count) ∧ members points labels label = [] := by
  rw [emptyClusters, List.mem_filter, List.mem_range'_1, List.isEmpty_iff]

end Empty

section Round

variable {points : List (Point Float)} {p : Partition Float}
  (hlength : p.labels.length = points.length) (hpoints : ∀ x ∈ points, FinitePoint x)
  (hcentres : ∀ c ∈ p.centres, NumberPoint c)

include hlength hpoints hcentres

/-- The empty clusters from one on take over points at positions that have not been taken before. -/
theorem exists_takenOver (dimension : ℕ) {previous : List (Point Float)} (first : ℕ) (taken : List ℕ)
    (henough : taken.length + previous.length ≤ points.length) :
    ∃ positions : List ℕ,
      positions.length = (emptyClusters points p.labels first previous.length).length ∧
      ∀ t j i : ℕ, (emptyClusters points p.labels first previous.length)[t]? = some (first + j) →
        positions[t]? = some i →
        (updateFrom points p.labels p.centres dimension previous first taken)[j]? = points[i]? ∧
        farthestPosition? points p.labels p.centres ((positions.take t).reverse ++ taken) = some i ∧
        IsFarthestFree points p ((positions.take t).reverse ++ taken) i := by
  induction previous generalizing first taken with
  | nil => exact ⟨[], rfl, by simp⟩
  | cons centre rest ih =>
    rw [List.length_cons] at henough
    -- A later empty cluster is one of the rest.
    have hlater : ∀ t j : ℕ, (emptyClusters points p.labels (first + 1) rest.length)[t]? = some (first + j) →
        ∃ m, j = m + 1 ∧ first + j = first + 1 + m := by
      intro t j ht
      obtain ⟨⟨hle, -⟩, -⟩ := mem_emptyClusters_iff.mp (List.mem_of_getElem? ht)
      exact ⟨j - 1, by omega, by omega⟩
    rw [List.length_cons, updateFrom]
    cases hmembers : members points p.labels first with
    | nil =>
      obtain ⟨i, hi, hfree⟩ := exists_farthestPosition? taken hlength hpoints hcentres (by omega)
      obtain ⟨positions, hcount, hrest⟩ := ih (first + 1) (i :: taken) (by rw [List.length_cons]; omega)
      rw [emptyClusters_succ_of_nil hmembers]
      simp only [hi]
      refine ⟨i :: positions, by simp [hcount], ?_⟩
      intro t j i' ht hi'
      cases t with
      | zero =>
        obtain rfl := Option.some.inj hi'
        obtain rfl : j = 0 := by
          have := Option.some.inj ht
          omega
        refine ⟨?_, hi, hfree⟩
        rw [List.getElem?_cons_zero, List.getElem?_eq_getElem hfree.lt_length,
          List.getD_eq_getElem _ _ hfree.lt_length]
      | succ t =>
        obtain ⟨m, rfl, hm⟩ := hlater t j ht
        rw [List.take_succ_cons, List.reverse_cons, List.append_assoc, List.singleton_append]
        exact hrest t m i' (hm ▸ ht) hi'
    | cons x group =>
      have hne : members points p.labels first ≠ [] := by
        rw [hmembers]
        exact List.cons_ne_nil x group
      obtain ⟨positions, hcount, hrest⟩ := ih (first + 1) taken (by omega)
      rw [emptyClusters_succ_of_ne hne]
      refine ⟨positions, hcount, ?_⟩
      intro t j i ht hi
      obtain ⟨m, rfl, hm⟩ := hlater t j ht
      exact hrest t m i (hm ▸ ht) hi

end Round

/-! ### Centres without NaNs -/

/-- The mean of finite points, not more than a machine counts to, has no NaN in it. -/
theorem numberPoint_meanPoint {dimension : ℕ} {group : List (Point Float)} (hgroup : ∀ x ∈ group, FinitePoint x)
    (hne : group ≠ []) (hlt : group.length < 2 ^ 64) : NumberPoint (meanPoint dimension group) := by
  have hsum : ∀ total : Point Float, NumberPoint total →
      NumberPoint (group.foldl (fun total x => List.zipWith (fun s c => s + c) total x) total) := by
    clear hne hlt
    induction group with
    | nil => exact fun _ htotal => htotal
    | cons x rest ih =>
      obtain ⟨hx, hrest⟩ := List.forall_mem_cons.mp hgroup
      intro total htotal
      refine ih hrest _ ?_
      intro c hc
      obtain ⟨i, hi, rfl⟩ := List.mem_iff_getElem.mp hc
      rw [List.getElem_zipWith]
      exact isNaN_add_eq_false (htotal _ (List.getElem_mem _)) (hx _ (List.getElem_mem _))
  have hstart : NumberPoint (List.replicate dimension 0.0) := by
    intro c hc
    rw [List.eq_of_mem_replicate hc]
    decide
  obtain ⟨hfinite, hpos⟩ := count_pos (List.length_pos_of_ne_nil hne) hlt
  intro c hc
  obtain ⟨s, hs, rfl⟩ := List.mem_map.mp hc
  exact isNaN_div_eq_false (hsum _ hstart s hs) hfinite hpos.ne'

theorem length_members_le {α : Type} (points : List (Point α)) (labels : List ℕ) (label : ℕ) :
    (members points labels label).length ≤ points.length := by
  rw [members, List.length_map]
  refine (List.length_filter_le _ _).trans ?_
  rw [List.length_zip]
  exact Nat.min_le_left _ _

/-- Rounds from centres without NaNs lead to centres without NaNs. -/
theorem numberPoint_iterate {points : List (Point Float)} {k dimension : ℕ}
    (hpoints : ∀ x ∈ points, x.length = dimension) (hfinite : ∀ x ∈ points, FinitePoint x)
    (hcount : points.length < 2 ^ 64) (hk : 0 < k) {p : Partition Float} (h : p.WellFormed points k dimension)
    (hcentres : ∀ c ∈ p.centres, NumberPoint c) (n : ℕ) :
    ∀ c ∈ ((Partition.next points)^[n] p).centres, NumberPoint c := by
  induction n with
  | zero => exact hcentres
  | succ n ih =>
    rw [Function.iterate_succ_apply']
    refine (h.iterate hpoints hk n).forall_mem_next hk (fun x hx => (hfinite x hx).numberPoint) ?_ ih
    intro label hne
    exact numberPoint_meanPoint (fun x hx => hfinite x (mem_of_mem_members hx)) hne
      ((length_members_le points _ label).trans_lt hcount)

/-! ### The centres of a round -/

namespace Partition.WellFormed

variable {points : List (Point Float)} {k dimension : ℕ} {p : Partition Float}

theorem updateCentres_eq (h : p.WellFormed points k dimension) (hk : 0 < k) :
    updateCentres points p.labels p.centres = updateFrom points p.labels p.centres dimension p.centres 0 [] := by
  rw [updateCentres, h.headD_length hk]

/-- A cluster with members has their mean as its new centre. -/
theorem exists_mean_updateCentres (h : p.WellFormed points k dimension)
    (hpoints : ∀ x ∈ points, x.length = dimension) {label : ℕ} (hlabel : label < k)
    (hmembers : members points p.labels label ≠ []) :
    ∃ centre, (updateCentres points p.labels p.centres)[label]? = some centre ∧
      IsMean dimension (members points p.labels label) centre := by
  have hlt : label < (updateCentres points p.labels p.centres).length := by
    rw [updateCentres, length_updateFrom, h.count]
    exact hlabel
  have hmean := getD_updateFrom p.centres dimension 0 [] (h.count.symm ▸ hlabel) (Nat.zero_add label ▸ hmembers)
  rw [Nat.zero_add, ← h.updateCentres_eq (Nat.zero_lt_of_lt hlabel), List.getD_eq_getElem _ _ hlt] at hmean
  refine ⟨meanPoint dimension (members points p.labels label), ?_, ?_⟩
  · rw [List.getElem?_eq_getElem hlt, hmean]
  · exact isMean_meanPoint fun x hx => hpoints x (mem_of_mem_members hx)

/-- The empty clusters of a round take over points at different positions. -/
theorem exists_positions (h : p.WellFormed points k dimension) (hfinite : ∀ x ∈ points, FinitePoint x)
    (hcentres : ∀ c ∈ p.centres, NumberPoint c) (hk : 0 < k) (hle : k ≤ points.length) :
    ∃ positions : List ℕ, positions.Nodup ∧
      positions.length = (emptyClusters points p.labels 0 k).length ∧
      ∀ t label i : ℕ, (emptyClusters points p.labels 0 k)[t]? = some label → positions[t]? = some i →
        (updateCentres points p.labels p.centres)[label]? = points[i]? ∧
        IsFarthestFree points p (positions.take t) i ∧
        farthestPosition? points p.labels p.centres (positions.take t).reverse = some i := by
  have henough : ([] : List ℕ).length + p.centres.length ≤ points.length := by
    rw [List.length_nil, Nat.zero_add, h.count]
    exact hle
  obtain ⟨positions, hpositions, htaken⟩ := exists_takenOver h.labels hfinite hcentres dimension 0 [] henough
  rw [h.count] at hpositions htaken
  rw [← h.updateCentres_eq hk] at htaken
  have hfill : ∀ t label i : ℕ, (emptyClusters points p.labels 0 k)[t]? = some label → positions[t]? = some i →
      (updateCentres points p.labels p.centres)[label]? = points[i]? ∧
      IsFarthestFree points p (positions.take t) i ∧
      farthestPosition? points p.labels p.centres (positions.take t).reverse = some i := by
    intro t label i ht hi
    obtain ⟨hcopy, hfound, hfarthest⟩ := htaken t label i (by rw [Nat.zero_add]; exact ht) hi
    rw [List.append_nil] at hfound hfarthest
    exact ⟨hcopy, hfarthest.congr fun j => List.mem_reverse, hfound⟩
  refine ⟨positions, ?_, hpositions, hfill⟩
  refine nodup_of_notMem_take fun t i hi => ?_
  have ht : t < (emptyClusters points p.labels 0 k).length :=
    hpositions ▸ (List.getElem?_eq_some_iff.mp hi).1
  exact (hfill t _ i (List.getElem?_eq_getElem ht) hi).2.1.notMem

end Partition.WellFormed

/-- The number of the members of a cluster that is not empty is greater than zero as a double. -/
theorem zero_lt_count_members {points : List (Point Float)} {labels : List ℕ} {label : ℕ}
    (hmembers : members points labels label ≠ []) (hcount : points.length < 2 ^ 64) :
    (0.0 : Float) < ((members points labels label).length : Float) := by
  obtain ⟨hfinite, hpos⟩ := count_pos (List.length_pos_of_ne_nil hmembers)
    ((length_members_le points labels label).trans_lt hcount)
  rw [← exactValue_zero] at hpos
  exact (lt_iff_exactValue_lt (by decide) hfinite).mpr hpos

/-- The rounds that are counted lead to the partition that they end with. -/
theorem partition_settle (points : List (Point Float)) (rounds : ℕ) (p : Partition Float) :
    (settle points rounds 0 p).partition = (Partition.next points)^[(settle points rounds 0 p).iterations] p := by
  obtain ⟨n, -, ⟨-, hused⟩ | ⟨-, -, hsettled⟩⟩ := settle_cases points rounds 0 p
  · simp only [hused, Nat.zero_add]
  · simp only [hsettled, Nat.zero_add]

/-- **The centres of a round.** A clustering is what its rounds lead to from the first centres. In every round a
cluster with members has their mean as its new centre, a sum divided by a count that is not zero. The clusters
without members take over points at different positions: each of them, in increasing order, the first point that is
farthest from the centre of its own cluster among those at positions that are not taken yet. There is always one, so
none of them keeps its previous centre. The points are not more than a machine word counts; their number would be
infinite as a double if it were large enough. -/
theorem updateCentres_fills (config : ClusteringConfig) {points : List (Point Float)} {k dimension : ℕ}
    (hpoints : ∀ x ∈ points, x.length = dimension) (hfinite : ∀ x ∈ points, FinitePoint x)
    (hk : 0 < k) (hle : k ≤ points.length) (hcount : points.length < 2 ^ 64) :
    (∃ c, cluster config points k = .ok c ∧
      c.partition = (Partition.next points)^[c.iterations] (startPartition config.seed points k)) ∧
    ∀ rounds : ℕ,
      let p := (Partition.next points)^[rounds] (startPartition config.seed points k)
      let centres := updateCentres points p.labels p.centres
      centres.length = k ∧
      (∀ label < k, members points p.labels label ≠ [] →
        (0.0 : Float) < ((members points p.labels label).length : Float) ∧
        ∃ centre, centres[label]? = some centre ∧ IsMean dimension (members points p.labels label) centre) ∧
      ∃ positions : List ℕ, positions.Nodup ∧
        positions.length = (emptyClusters points p.labels 0 k).length ∧
        ∀ t label i : ℕ, (emptyClusters points p.labels 0 k)[t]? = some label → positions[t]? = some i →
          centres[label]? = points[i]? ∧ IsFarthestFree points p (positions.take t) i ∧
          farthestPosition? points p.labels p.centres (positions.take t).reverse = some i := by
  have hstart := wellFormed_startPartition hpoints hk hle config.seed
  refine ⟨⟨_, cluster_eq_ok config hpoints hk hle, partition_settle ..⟩, ?_⟩
  intro rounds p centres
  have hshape : p.WellFormed points k dimension := hstart.iterate hpoints hk rounds
  have hne : points ≠ [] := List.ne_nil_of_length_pos (hk.trans_le hle)
  have hcentres : ∀ c ∈ p.centres, NumberPoint c := by
    refine numberPoint_iterate hpoints hfinite hcount hk hstart ?_ rounds
    exact fun c hc => (hfinite c (mem_of_mem_startPartition hne config.seed k c hc)).numberPoint
  have hlength : centres.length = k := by
    rw [← hshape.count]
    exact length_updateFrom ..
  refine ⟨hlength, ?_, hshape.exists_positions hfinite hcentres hk hle⟩
  intro label hlabel hmembers
  exact ⟨zero_lt_count_members hmembers hcount, hshape.exists_mean_updateCentres hpoints hlabel hmembers⟩

/-- Two equal points and another one. -/
def twinPoints : List (Point Float) := [[0.0], [0.0], [1.0]]

/-- With as many clusters as points, the equal points have the same label at first and the third cluster is
empty. -/
theorem twinPoints_fills :
    (∀ x ∈ twinPoints, x.length = 1) ∧ (∀ x ∈ twinPoints, FinitePoint x) ∧ twinPoints.length < 2 ^ 64 ∧
    emptyClusters twinPoints (startPartition 0 twinPoints 3).labels 0 3 = [2] ∧
    ∃ i, i < twinPoints.length ∧
      (updateCentres twinPoints (startPartition 0 twinPoints 3).labels (startPartition 0 twinPoints 3).centres)[2]? =
        twinPoints[i]? := by
  have hpoints : ∀ x ∈ twinPoints, x.length = 1 := by decide
  have hfinite : ∀ x ∈ twinPoints, FinitePoint x := by decide +kernel
  have hcount : twinPoints.length < 2 ^ 64 := by decide
  have hempty : emptyClusters twinPoints (startPartition 0 twinPoints 3).labels 0 3 = [2] := by decide +kernel
  obtain ⟨-, hrounds⟩ :=
    updateCentres_fills .standard hpoints hfinite (Nat.succ_pos 2) (Nat.le_refl 3) hcount
  obtain ⟨-, -, positions, -, hlength, hfill⟩ := hrounds 0
  have ht : (emptyClusters twinPoints (startPartition 0 twinPoints 3).labels 0 3)[0]? = some 2 := by
    rw [hempty, List.getElem?_cons_zero]
  have hzero : 0 < positions.length := by
    rw [hlength]
    exact (List.getElem?_eq_some_iff.mp ht).1
  obtain ⟨hcopy, hfarthest, -⟩ := hfill 0 2 positions[0] ht (List.getElem?_eq_getElem hzero)
  exact ⟨hpoints, hfinite, hcount, hempty, positions[0], hfarthest.lt_length, hcopy⟩

end DelayTuning
