import DelayTuning.Proofs.Clustering.Optimal

/-!
# How the rounds of a clustering end

In exact arithmetic every round that changes a label makes the labels cheaper: the cost of the labels with
the means of their clusters as centres goes down, in the lexicographic order of the squared distances and
the labels. So no labels come back, and since there are finitely many the rounds end by themselves. The
inertia goes down as well, or stays.

## Main definitions

- `Partition.Changing`: a number of rounds that all change a label
- `labelsAfter`: the labels after a number of rounds, counted on without an end

## Main statements

- `settle_cases`: the two ways in which the rounds end, for any scalars
- `meanCost_next_lt`, `inertia_next_le`: what a round does to the cost and to the inertia
- `meanCost_iterate_lt`, `labels_iterate_ne`: rounds that all change a label never return to the same
  labels
- `succ_le_pow_of_changing`: how many such rounds there are
- `cluster_settles`: no labels come twice but the last, and enough rounds are always enough
- `cluster_inertia_le`: more rounds never make the inertia larger
-/

namespace DelayTuning

/-! ### Rounds one by one -/

section

variable {α : Type} [Scalar α] {points : List (Point α)} {k dimension : ℕ}

/-- Each of the next `n` rounds changes a label. -/
def Partition.Changing (points : List (Point α)) (n : ℕ) (p : Partition α) : Prop :=
  ∀ m < n, ((Partition.next points)^[m + 1] p).labels ≠ ((Partition.next points)^[m] p).labels

theorem Partition.changing_zero (points : List (Point α)) (p : Partition α) : p.Changing points 0 :=
  fun m hm => absurd hm (Nat.not_lt_zero m)

theorem Partition.Changing.succ {p : Partition α} (hne : (p.next points).labels ≠ p.labels) {n : ℕ}
    (h : (p.next points).Changing points n) : p.Changing points (n + 1) := by
  intro m hm
  cases m with
  | zero => exact hne
  | succ m => exact h m (Nat.lt_of_succ_lt_succ hm)

/-- The rounds go on as long as they change a label. They are used up, or one of them leaves all labels
    as they were and is the last. -/
theorem settle_cases (points : List (Point α)) (rounds done : ℕ) (p : Partition α) :
    ∃ n, p.Changing points n ∧
      ((n = rounds ∧
          settle points rounds done p = ⟨(Partition.next points)^[n] p, done + n, false⟩) ∨
        (n < rounds ∧
          ((Partition.next points)^[n + 1] p).labels = ((Partition.next points)^[n] p).labels ∧
          settle points rounds done p = ⟨(Partition.next points)^[n + 1] p, done + (n + 1), true⟩)) := by
  induction rounds generalizing done p with
  | zero => exact ⟨0, p.changing_zero points, Or.inl ⟨rfl, rfl⟩⟩
  | succ rounds ih =>
    rw [settle]
    by_cases hsame : (p.next points).labels = p.labels
    · refine ⟨0, p.changing_zero points, Or.inr ⟨Nat.succ_pos _, hsame, ?_⟩⟩
      rw [if_pos hsame]
      rfl
    · obtain ⟨n, hchanging, hend⟩ := ih (done + 1) (p.next points)
      have hdone : ∀ m, done + 1 + m = done + (m + 1) := by omega
      refine ⟨n + 1, hchanging.succ hsame, ?_⟩
      rw [hdone, hdone] at hend
      rw [if_neg hsame]
      exact hend.imp (And.imp_left (congrArg (· + 1))) (And.imp_left Nat.succ_lt_succ)

/-- The labels after a number of rounds from the first centres, whether or not the rounds go on so far. -/
def labelsAfter (seed : UInt64) (points : List (Point α)) (k rounds : ℕ) : List ℕ :=
  ((Partition.next points)^[rounds] (startPartition seed points k)).labels

/-- More rounds are the rounds there were, and then the others unless a round was the last. -/
theorem settle_add (points : List (Point α)) (rounds more done : ℕ) (p : Partition α) :
    settle points (rounds + more) done p =
      let settled := settle points rounds done p
      if settled.converged then settled else settle points more (done + rounds) settled.partition := by
  induction rounds generalizing done p with
  | zero =>
    rw [Nat.zero_add]
    rfl
  | succ rounds ih =>
    rw [Nat.add_right_comm, settle, settle]
    by_cases hsame : (p.next points).labels = p.labels
    · simp only [if_pos hsame, if_true]
    · simp only [if_neg hsame]
      rw [ih, Nat.add_right_comm, Nat.add_assoc]

/-- The labels before a round are numbers of its centres as well. -/
theorem Partition.WellFormed.bounded_next {p : Partition α} (h : p.WellFormed points k dimension)
    (hpoints : ∀ x ∈ points, x.length = dimension) (hk : 0 < k) :
    ∀ label ∈ p.labels, label < (p.next points).centres.length := by
  intro label hlabel
  rw [(h.next hpoints hk).count]
  exact h.bounded label hlabel

/-- Every number of rounds keeps the shape. -/
theorem Partition.WellFormed.iterate (hpoints : ∀ x ∈ points, x.length = dimension) (hk : 0 < k)
    {p : Partition α} (h : p.WellFormed points k dimension) (n : ℕ) :
    ((Partition.next points)^[n] p).WellFormed points k dimension := by
  induction n with
  | zero => exact h
  | succ n ih =>
    rw [Function.iterate_succ_apply']
    exact ih.next hpoints hk

end

/-! ### What a round gains -/

variable {K : Type} [Field K] [LinearOrder K] [IsStrictOrderedRing K] {points : List (Point (Exact K))}
  {k dimension : ℕ}

section

variable {p : Partition (Exact K)} (hpoints : ∀ x ∈ points, x.length = dimension) (hk : 0 < k)
  (h : p.WellFormed points k dimension)

include hpoints hk h

omit hk in
/-- The labels of a well-formed partition are not cheaper with its centres than with the means. -/
theorem meanCost_le_cost :
    meanCost points dimension p.labels ≤ cost points (centreAt p.centres) p.labels := by
  refine meanCost_le hpoints h.labels ?_
  intro label hlabel
  have hlt : label < p.centres.length := h.count ▸ h.bounded label hlabel
  rw [centreAt, List.getD_eq_getElem _ _ hlt]
  exact h.dimension _ (List.getElem_mem hlt)

/-- A round that changes a label makes the labels cheaper. -/
theorem meanCost_next_lt (hne : (p.next points).labels ≠ p.labels) :
    meanCost points dimension (p.next points).labels < meanCost points dimension p.labels := by
  have hnext := h.next hpoints hk
  calc meanCost points dimension (p.next points).labels
    _ ≤ cost points (centreAt (p.next points).centres) (p.next points).labels :=
      meanCost_le_cost hpoints hnext
    _ < cost points (centreAt (p.next points).centres) p.labels :=
      cost_assign_lt h.labels (h.bounded_next hpoints hk) hne
    _ = meanCost points dimension p.labels := cost_updateCentres h hk

/-- A round does not make the inertia larger. -/
theorem inertia_next_le : inertia points (p.next points) ≤ inertia points p := by
  have hcost : cost points (centreAt (p.next points).centres) (p.next points).labels ≤
      cost points (centreAt p.centres) p.labels :=
    calc cost points (centreAt (p.next points).centres) (p.next points).labels
      _ ≤ cost points (centreAt (p.next points).centres) p.labels :=
        cost_assign_le h.labels (h.bounded_next hpoints hk)
      _ = meanCost points dimension p.labels := cost_updateCentres h hk
      _ ≤ cost points (centreAt p.centres) p.labels := meanCost_le_cost hpoints h
  have hvalue := Prod.Lex.monotone_fst _ _ hcost
  rwa [← inertia_eq, ← inertia_eq] at hvalue

/-- Nor do several rounds. -/
theorem inertia_settle_le (rounds done : ℕ) :
    inertia points (settle points rounds done p).partition ≤ inertia points p := by
  induction rounds generalizing done p with
  | zero => exact le_refl (inertia points p).value
  | succ rounds ih =>
    have hround := inertia_next_le hpoints hk h
    rw [settle]
    split
    · exact hround
    · exact le_trans (ih (h.next hpoints hk) (done + 1)) hround

/-- Rounds that all change a label make the labels cheaper and cheaper. -/
theorem meanCost_iterate_lt {n : ℕ} (hchanging : p.Changing points n) {s t : ℕ}
    (hst : s < t) (htn : t ≤ n) :
    meanCost points dimension ((Partition.next points)^[t] p).labels <
      meanCost points dimension ((Partition.next points)^[s] p).labels := by
  induction t, hst using Nat.le_induction with
  | base =>
    have hne := hchanging s htn
    rw [Function.iterate_succ_apply'] at hne ⊢
    exact meanCost_next_lt hpoints hk (h.iterate hpoints hk s) hne
  | succ t _ ih =>
    have hne := hchanging t htn
    refine lt_trans ?_ (ih (Nat.le_of_succ_le htn))
    rw [Function.iterate_succ_apply'] at hne ⊢
    exact meanCost_next_lt hpoints hk (h.iterate hpoints hk t) hne

/-- So no labels come back. -/
theorem labels_iterate_ne {n : ℕ} (hchanging : p.Changing points n) {s t : ℕ} (hst : s < t)
    (htn : t ≤ n) :
    ((Partition.next points)^[s] p).labels ≠ ((Partition.next points)^[t] p).labels := by
  intro heq
  have hcost := meanCost_iterate_lt hpoints hk h hchanging hst htn
  rw [heq] at hcost
  exact lt_irrefl _ hcost

omit [Field K] [LinearOrder K] [IsStrictOrderedRing K] hpoints hk h in
/-- Labels below `k` as a function into the numbers below `k`. -/
theorem exists_ofFn_eq {labels : List ℕ} {n : ℕ} (hlength : labels.length = n)
    (hbounded : ∀ label ∈ labels, label < k) :
    ∃ g : Fin n → Fin k, List.ofFn (fun i => (g i : ℕ)) = labels := by
  subst hlength
  exact ⟨fun i => ⟨labels[i], hbounded _ (List.getElem_mem i.isLt)⟩, List.ofFn_getElem⟩

/-- There are no more rounds that all change a label than there are labels of the points. -/
theorem succ_le_pow_of_changing {n : ℕ} (hchanging : p.Changing points n) :
    n + 1 ≤ k ^ points.length := by
  have hfunction : ∀ t : Fin (n + 1), ∃ g : Fin points.length → Fin k,
      List.ofFn (fun i => (g i : ℕ)) = ((Partition.next points)^[t] p).labels := by
    intro t
    have hshape := h.iterate hpoints hk t
    exact exists_ofFn_eq hshape.labels hshape.bounded
  -- the rounds inject into the functions from the points to the labels, of which there are so many
  choose labelOf hlabelOf using hfunction
  have hinjective : Function.Injective labelOf := by
    intro s t hst
    have hlabels : ((Partition.next points)^[s] p).labels = ((Partition.next points)^[t] p).labels := by
      rw [← hlabelOf s, ← hlabelOf t, hst]
    by_contra hne
    obtain hlt | hlt := lt_or_gt_of_ne hne
    · exact labels_iterate_ne hpoints hk h hchanging hlt (Nat.le_of_lt_succ t.isLt) hlabels
    · exact labels_iterate_ne hpoints hk h hchanging hlt (Nat.le_of_lt_succ s.isLt) hlabels.symm
  simpa using Fintype.card_le_of_injective labelOf hinjective

end

/-! ### The result -/

/-- In exact arithmetic a clustering settles by itself. No labels come twice up to the round it ends with,
    except that this round has the labels of the round before if the clustering has converged; and it
    has converged if there may be as many rounds as there are labels. -/
theorem cluster_settles (config : ClusteringConfig) (hpoints : ∀ x ∈ points, x.length = dimension)
    (hk : 0 < k) (hle : k ≤ points.length) :
    ∃ c, cluster config points k = .ok c ∧
      c.labels = labelsAfter config.seed points k c.iterations ∧
      c.iterations ≤ config.maxIterations ∧
      (c.converged = true → ∃ n, c.iterations = n + 1 ∧
        labelsAfter config.seed points k (n + 1) = labelsAfter config.seed points k n) ∧
      (∀ s t, s < t → t ≤ c.iterations →
        labelsAfter config.seed points k s = labelsAfter config.seed points k t →
        c.converged = true ∧ t = c.iterations ∧ t = s + 1) ∧
      (k ^ points.length ≤ config.maxIterations → c.converged = true) := by
  have hstart := wellFormed_startPartition hpoints hk hle config.seed
  obtain ⟨n, hchanging, hend⟩ :=
    settle_cases points config.maxIterations 0 (startPartition config.seed points k)
  have hdistinct : ∀ s t, s < t → t ≤ n →
      labelsAfter config.seed points k s ≠ labelsAfter config.seed points k t :=
    fun s t => labels_iterate_ne hpoints hk hstart hchanging
  rw [cluster_eq_ok config hpoints hk hle]
  obtain ⟨rfl, hused⟩ | ⟨hlt, hsame, hlast⟩ := hend
  · rw [hused, Nat.zero_add]
    refine ⟨_, rfl, rfl, le_rfl, by simp, ?_, ?_⟩
    · intro s t hst ht heq
      exact absurd heq (hdistinct s t hst ht)
    · intro henough
      have hcount := succ_le_pow_of_changing hpoints hk hstart hchanging
      omega
  · rw [hlast, Nat.zero_add]
    refine ⟨_, rfl, rfl, hlt, fun _ => ⟨n, rfl, hsame⟩, ?_, fun _ => rfl⟩
    intro s t hst ht heq
    simp only at ht
    have htn : t = n + 1 := by
      by_contra hne
      exact hdistinct s t hst (by omega) heq
    subst htn
    have hsn : s = n := by
      by_contra hne
      exact hdistinct s n (by omega) le_rfl (heq.trans hsame)
    exact ⟨rfl, rfl, congrArg (· + 1) hsn.symm⟩

/-- Three rational points, of which two are the same. -/
def repeatedPoints : List (Point (Exact ℚ)) := [[⟨0⟩], [⟨0⟩], [⟨1⟩]]

/-- With a cluster for each of the three points, one cluster is empty, and yet the clustering settles. -/
theorem repeatedPoints_settle :
    (∀ x ∈ repeatedPoints, x.length = 1) ∧ 3 ≤ repeatedPoints.length ∧
    members repeatedPoints (labelsAfter 0 repeatedPoints 3 0) 2 = [] ∧
    3 ^ repeatedPoints.length ≤ ClusteringConfig.standard.maxIterations ∧
    ∃ c, cluster .standard repeatedPoints 3 = .ok c ∧ c.converged = true ∧
      ∀ s t, s < t → t < c.iterations →
        labelsAfter 0 repeatedPoints 3 s ≠ labelsAfter 0 repeatedPoints 3 t := by
  have hpoints : ∀ x ∈ repeatedPoints, x.length = 1 := by decide
  have hle : 3 ≤ repeatedPoints.length := by decide
  have henough : 3 ^ repeatedPoints.length ≤ ClusteringConfig.standard.maxIterations := by decide
  obtain ⟨c, hcluster, -, -, -, hrepeat, hconverged⟩ :=
    cluster_settles .standard hpoints (Nat.succ_pos 2) hle
  refine ⟨hpoints, hle, by decide +kernel, henough, c, hcluster, hconverged henough, ?_⟩
  intro s t hst ht heq
  exact ht.ne (hrepeat s t hst ht.le heq).2.1

/-- In exact arithmetic more rounds never make the inertia larger, and a clustering that has converged
    stays the same. -/
theorem cluster_inertia_le (config : ClusteringConfig) {rounds more : ℕ} (hrounds : rounds ≤ more)
    (hpoints : ∀ x ∈ points, x.length = dimension) (hk : 0 < k) (hle : k ≤ points.length) :
    ∃ c d, cluster { config with maxIterations := rounds } points k = .ok c ∧
      cluster { config with maxIterations := more } points k = .ok d ∧
      d.inertia ≤ c.inertia ∧ (c.converged = true → d = c) := by
  have hstart := wellFormed_startPartition hpoints hk hle config.seed
  have hadd := settle_add points rounds (more - rounds) 0 (startPartition config.seed points k)
  rw [Nat.add_sub_cancel' hrounds] at hadd
  rw [cluster_eq_ok _ hpoints hk hle, cluster_eq_ok _ hpoints hk hle]
  simp only [hadd]
  refine ⟨_, _, rfl, rfl, ?_, ?_⟩
  · split
    · exact le_rfl
    · exact inertia_settle_le hpoints hk (wellFormed_settle hpoints hk rounds 0 hstart) _ _
  · intro hconverged
    rw [if_pos hconverged]

/-- The inertia of three points without any rounds and with up to three hundred. -/
theorem repeatedPoints_inertia_le :
    (∀ x ∈ repeatedPoints, x.length = 1) ∧ 2 ≤ repeatedPoints.length ∧
    ∃ c d, cluster { ClusteringConfig.standard with maxIterations := 0 } repeatedPoints 2 = .ok c ∧
      cluster { ClusteringConfig.standard with maxIterations := 300 } repeatedPoints 2 = .ok d ∧
      d.inertia ≤ c.inertia ∧ (c.converged = true → d = c) := by
  have hpoints : ∀ x ∈ repeatedPoints, x.length = 1 := by decide
  have hle : 2 ≤ repeatedPoints.length := by decide
  exact ⟨hpoints, hle, cluster_inertia_le .standard (Nat.zero_le 300) hpoints (Nat.succ_pos 1) hle⟩

end DelayTuning
