import DelayTuning.Optimizer.Pool
import DelayTuning.Proofs.Space.Draw

/-!
# The size of the pool

The pool for a batch has at least four candidates for each place in the batch, whatever the parameters
of the optimizer say, and every candidate of it has one coordinate for each parameter of the space if
the observed ones have.

## Main statements

- `length_of_drawPool`: the number of candidates
- `batchSize_le_length_of_drawPool`: the pool is never smaller than the batch
- `length_of_mem_drawPool`: the number of coordinates of each candidate
-/

namespace DelayTuning

theorem length_perturbCoordinates (scale : Double) (parameters : List (Parameter Double))
    (base : Candidate) (g : Generator) :
    (perturbCoordinates scale parameters base g).1.length = min parameters.length base.length := by
  induction parameters generalizing base g with
  | nil => simp [perturbCoordinates]
  | cons p rest ih =>
    cases base with
    | nil => simp [perturbCoordinates]
    | cons c base => simp [perturbCoordinates, ih]

theorem length_perturb (space : Space Double) (scale : Double) (base : Candidate) (g : Generator) :
    (perturb space scale base g).1.length = min space.dimension base.length := by
  simp [perturb, length_perturbCoordinates, Space.dimension]

/-- Every entry of the ledger that is perturbed is an observation of the ledger. -/
theorem mem_entries_of_mem_elites {config : OptimizerConfig} {ledger : Ledger}
    {observation : Observation} (h : observation ∈ elites config ledger) :
    observation ∈ ledger.entries :=
  List.mem_mergeSort.mp (List.mem_of_mem_take h)

/-- There is something to perturb as soon as something has been observed. -/
theorem elites_ne_nil {config : OptimizerConfig} {ledger : Ledger}
    (h : ledger.entries ≠ []) : elites config ledger ≠ [] := by
  intro hnil
  have hlength := congrArg List.length hnil
  rw [elites, List.length_take, List.length_mergeSort, List.length_nil] at hlength
  have hpos : 0 < ledger.entries.length := List.length_pos_iff.mpr h
  omega

/-- A base that the local part of a pool perturbs is one of the given bases. -/
theorem getD_mod_mem {bases : List Candidate} (h : bases ≠ []) (i : Nat) :
    bases.getD (i % bases.length) [] ∈ bases := by
  have hlt : i % bases.length < bases.length := Nat.mod_lt i (List.length_pos_iff.mpr h)
  rw [List.getD_eq_getElem?_getD, List.getElem?_eq_getElem hlt]
  exact List.getElem_mem hlt

section Pool

variable {space : Space Double} {config : OptimizerConfig} {ledger : Ledger} {batchSize : Nat}
  {g g' : Generator} {pool : List Candidate}

theorem exists_append_of_drawPool
    (h : drawPool space config ledger batchSize g = (some pool, g')) :
    ∃ near far between,
      drawLocal space (.ofFloat config.perturbationScale)
        ((elites config ledger).map Observation.candidate) (localCount config batchSize) g =
          (near, between) ∧
      (drawUniform space (poolSizeFor config batchSize - localCount config batchSize) between).1 =
        some far ∧
      pool = near ++ far := by
  have hpool := congrArg Prod.fst h
  simp only [drawPool] at hpool
  obtain ⟨far, hfar, hpool⟩ := Option.map_eq_some_iff.mp hpool
  exact ⟨_, far, _, rfl, hfar, hpool.symm⟩

theorem length_of_drawPool (h : drawPool space config ledger batchSize g = (some pool, g')) :
    pool.length = max (poolSizeFor config batchSize) (localCount config batchSize) := by
  obtain ⟨near, far, between, hnear, hfar, rfl⟩ := exists_append_of_drawPool h
  have hnearLength : near.length = localCount config batchSize := by
    have hlength := congrArg (fun drawn => drawn.1.length) hnear
    simpa [drawLocal] using hlength.symm
  have hfarLength : far.length = poolSizeFor config batchSize - localCount config batchSize := by
    simpa using length_of_drawEach? hfar
  rw [List.length_append, hnearLength, hfarLength]
  omega

/-- The pool is never smaller than the batch. -/
theorem batchSize_le_length_of_drawPool
    (h : drawPool space config ledger batchSize g = (some pool, g')) :
    batchSize ≤ pool.length := by
  have hsize : 4 * batchSize ≤ poolSizeFor config batchSize := Nat.le_max_right _ _
  rw [length_of_drawPool h]
  omega

/-- If the observed candidates have a coordinate for each parameter, so has every candidate of the
    pool. -/
theorem length_of_mem_drawPool (hledger : ledger.entries ≠ [])
    (hobserved : ∀ observation ∈ ledger.entries, observation.candidate.length = space.dimension)
    (h : drawPool space config ledger batchSize g = (some pool, g')) :
    ∀ c ∈ pool, c.length = space.dimension := by
  obtain ⟨near, far, between, hnear, hfar, rfl⟩ := exists_append_of_drawPool h
  have hbases : (elites config ledger).map Observation.candidate ≠ [] := by
    simpa using elites_ne_nil hledger
  have hbase : ∀ base ∈ (elites config ledger).map Observation.candidate,
      base.length = space.dimension := by
    intro base hmem
    obtain ⟨observation, helite, rfl⟩ := List.mem_map.mp hmem
    exact hobserved observation (mem_entries_of_mem_elites helite)
  intro c hc
  -- a local candidate has the length of its base, a uniform one that of the space
  obtain hc | hc := List.mem_append.mp hc
  · have hmem : c ∈ (drawLocal space (.ofFloat config.perturbationScale)
        ((elites config ledger).map Observation.candidate) (localCount config batchSize) g).1 := by
      rw [hnear]
      exact hc
    refine forall_mem_drawEach (P := fun c => c.length = space.dimension) ?_ g c hmem
    intro i _ g
    rw [length_perturb, hbase _ (getD_mod_mem hbases i), Nat.min_self]
  · refine forall_mem_of_drawEach? (P := fun c => c.length = space.dimension) ?_ hfar c hc
    intro _ _ g y hy
    exact Space.length_of_uniform hy

end Pool

end DelayTuning
