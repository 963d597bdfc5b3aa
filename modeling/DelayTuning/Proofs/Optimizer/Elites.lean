import DelayTuning.Proofs.Binary64.TotalOrder
import DelayTuning.Proofs.Optimizer.Reached
import DelayTuning.Proofs.Run.Best

/-!
# The best observations

The pool for a batch starts from the best observations, which are found by sorting the whole ledger in the total order
of the values. An observation can be made twice, so the observations are told apart by their positions. The total
order does not contradict the order of numbers, so no other observation is strictly lower than one of those that are
chosen.

The ledger keeps a best observation of its own, and compares numbers. The two agree as long as the sign of a zero does
not decide: of two zeros the ledger keeps the earlier one, and the sorted list starts with the first negative one.

## Main definitions

- `rankedObservations`, `placedElites`: the observations in their order, and the best ones, with their positions
- `Ledger.Lowest`: observations at different positions that no other observation is below

## Main statements

- `lowest_placedElites`: the elites are such observations
- `first_of_head?_placedElites`: the first elite is the earliest one that comes first in the total order
- `Optimizer.first_elite`: the first elite and the best observation of the ledger
-/

namespace DelayTuning

/-! ### The order of the observations -/

/-- The observations of a ledger with their positions, the lowest value first. Equal values stay in the order of the
ledger. -/
def rankedObservations (ledger : Ledger) : List (Observation × ℕ) :=
  ledger.entries.zipIdx.mergeSort (List.zipIdxLE fun a b => totalLe a.value b.value)

/-- The elites with their positions on the ledger. -/
def placedElites (config : OptimizerConfig) (ledger : Ledger) : List (Observation × ℕ) :=
  (rankedObservations ledger).take (max config.eliteCount 1)

theorem map_fst_placedElites (config : OptimizerConfig) (ledger : Ledger) :
    (placedElites config ledger).map Prod.fst = elites config ledger := by
  rw [placedElites, List.map_take, elites]
  exact congrArg (List.take _) List.mergeSort_zipIdx

theorem length_elites (config : OptimizerConfig) (ledger : Ledger) :
    (elites config ledger).length = min (max config.eliteCount 1) ledger.count := by
  rw [elites, List.length_take, List.length_mergeSort, Ledger.count]

section Order

variable {config : OptimizerConfig} {ledger : Ledger} {p q : Observation × ℕ}

theorem mem_rankedObservations : p ∈ rankedObservations ledger ↔ ledger.entries[p.2]? = some p.1 :=
  List.mem_mergeSort.trans List.mem_zipIdx_iff_getElem?

theorem nodup_positions_rankedObservations (ledger : Ledger) :
    ((rankedObservations ledger).map Prod.snd).Nodup := by
  have hperm := (List.mergeSort_perm ledger.entries.zipIdx
    (List.zipIdxLE fun a b => totalLe a.value b.value)).map Prod.snd
  rw [List.zipIdx_map_snd] at hperm
  exact hperm.nodup_iff.mpr List.nodup_range'

/-- An observation comes before another one if it is not above it in the total order, and stands first on the ledger
if it is not below it either. -/
structure PlacedBefore (p q : Observation × ℕ) : Prop where
  value_le : totalLe p.1.value q.1.value = true
  position_le : totalLe q.1.value p.1.value = true → p.2 ≤ q.2

theorem placedBefore_of_zipIdxLE (h : List.zipIdxLE (fun a b => totalLe a.value b.value) p q = true) :
    PlacedBefore p q := by
  rw [List.zipIdxLE] at h
  split at h
  · next hle =>
    refine ⟨hle, fun hge => ?_⟩
    have hge' : totalLe q.1.value p.1.value = true := hge
    rw [if_pos hge'] at h
    exact of_decide_eq_true h
  · cases h

theorem placedBefore_refl (p : Observation × ℕ) : PlacedBefore p p :=
  ⟨totalLe_refl p.1.value, fun _ => le_rfl⟩

/-- A positive zero does not come before a negative one. -/
theorem not_placedBefore_of_zeros (hp : p.1.value = 0.0) (hq : q.1.value = -0.0) : ¬ PlacedBefore p q := by
  intro hbefore
  have hvalues := hbefore.value_le
  rw [hp, hq] at hvalues
  exact absurd hvalues (by decide)

theorem pairwise_rankedObservations (ledger : Ledger) :
    (rankedObservations ledger).Pairwise PlacedBefore := by
  have hsorted := List.pairwise_mergeSort
    (List.zipIdxLE_trans fun (a b c : Observation) hab hbc =>
      totalLe_trans a.value b.value c.value hab hbc)
    (List.zipIdxLE_total fun a b => totalLe_total a.value b.value) ledger.entries.zipIdx
  exact hsorted.imp placedBefore_of_zipIdxLE

/-- The first elite comes before all observations. -/
theorem first_of_head?_placedElites (h : (placedElites config ledger).head? = some p)
    (hq : ledger.entries[q.2]? = some q.1) : PlacedBefore p q := by
  have hpositive : max config.eliteCount 1 ≠ 0 := by omega
  rw [placedElites, List.head?_take, if_neg hpositive] at h
  obtain ⟨rest, hranked⟩ := List.head?_eq_some_iff.mp h
  have hmem := mem_rankedObservations.mpr hq
  have hpairwise := pairwise_rankedObservations ledger
  rw [hranked] at hmem hpairwise
  obtain rfl | hlater := List.mem_cons.mp hmem
  · exact placedBefore_refl _
  · exact (List.pairwise_cons.mp hpairwise).1 q hlater

/-- The elites come before all other observations. -/
theorem placedBefore_of_notMem_placedElites (hp : p ∈ placedElites config ledger)
    (hq : ledger.entries[q.2]? = some q.1) (hnot : q ∉ placedElites config ledger) : PlacedBefore p q := by
  have hpairwise := pairwise_rankedObservations ledger
  have hmem := mem_rankedObservations.mpr hq
  rw [← List.take_append_drop (max config.eliteCount 1) (rankedObservations ledger)] at hpairwise hmem
  have hdropped := (List.mem_append.mp hmem).resolve_left hnot
  exact (List.pairwise_append.mp hpairwise).2.2 p hp q hdropped

end Order

/-- Observations of a ledger at different positions, the lower ones first. No other observation is strictly lower than
one of them. -/
structure Ledger.Lowest (ledger : Ledger) (placed : List (Observation × ℕ)) : Prop where
  recorded : ∀ p ∈ placed, ledger.entries[p.2]? = some p.1
  distinct : (placed.map Prod.snd).Nodup
  ordered : placed.Pairwise fun p q => p.1.value ≤ q.1.value
  lowest : ∀ p ∈ placed, ∀ other i, ledger.entries[i]? = some other → i ∉ placed.map Prod.snd →
    ¬ other.value < p.1.value

theorem isFinite_of_getElem?_entries {ledger : Ledger} (h : AllFiniteValues ledger.values) {i : ℕ}
    {observation : Observation} (hi : ledger.entries[i]? = some observation) :
    observation.value.isFinite = true :=
  h _ (List.mem_map_of_mem (List.mem_of_getElem? hi))

theorem lowest_placedElites {ledger : Ledger} (h : AllFiniteValues ledger.values) (config : OptimizerConfig) :
    ledger.Lowest (placedElites config ledger) := by
  have hrecorded : ∀ p ∈ placedElites config ledger, ledger.entries[p.2]? = some p.1 :=
    fun p hp => mem_rankedObservations.mp (List.mem_of_mem_take hp)
  have hfinite : ∀ p ∈ placedElites config ledger, p.1.value.isFinite = true :=
    fun p hp => isFinite_of_getElem?_entries h (hrecorded p hp)
  refine ⟨hrecorded, ?_, ?_, ?_⟩
  · exact (nodup_positions_rankedObservations ledger).sublist ((List.take_sublist _ _).map Prod.snd)
  · have hpairwise := (pairwise_rankedObservations ledger).sublist
      (List.take_sublist (max config.eliteCount 1) (rankedObservations ledger))
    refine List.Pairwise.imp_of_mem ?_ hpairwise
    intro p q hp hq hbefore
    exact le_of_totalLe (hfinite p hp) (hfinite q hq) hbefore.value_le
  · intro p hp other i hi hnot
    have hother := isFinite_of_getElem?_entries h hi
    have hbefore : PlacedBefore p (other, i) :=
      placedBefore_of_notMem_placedElites hp hi fun hmem => hnot (List.mem_map_of_mem (f := Prod.snd) hmem)
    rw [not_lt_iff_exactValue_le hother (hfinite p hp)]
    exact exactValue_le_of_totalLe (hfinite p hp) hother hbefore.value_le

/-! ### The first elite and the best observation -/

section First

variable {config : OptimizerConfig} {ledger : Ledger} {first best : Observation} {i j : ℕ}

theorem exists_head?_placedElites (config : OptimizerConfig) (h : ledger.entries ≠ []) :
    ∃ first j, (placedElites config ledger).head? = some (first, j) ∧ ledger.entries[j]? = some first ∧
      (elites config ledger).head? = some first := by
  have helites : elites config ledger ≠ [] := elites_ne_nil h
  have hne : placedElites config ledger ≠ [] := by
    intro hnil
    refine helites ?_
    rw [← map_fst_placedElites, hnil, List.map_nil]
  obtain ⟨⟨first, j⟩, rest, hplaced⟩ := List.exists_cons_of_ne_nil hne
  refine ⟨first, j, by rw [hplaced, List.head?_cons], ?_, ?_⟩
  · have hmem : (first, j) ∈ placedElites config ledger := by
      rw [hplaced]
      exact List.mem_cons_self
    exact mem_rankedObservations.mp (List.mem_of_mem_take hmem)
  · rw [← map_fst_placedElites, hplaced, List.map_cons, List.head?_cons]

/-- The first elite is minimal, like the best observation, and comes before it in the total order. -/
theorem exactValue_first_eq_best (h : AllFiniteValues ledger.values)
    (hbest : IsLeast {k | NotAbove ledger.values k} i) (hi : ledger.entries[i]? = some best)
    (hfirst : (placedElites config ledger).head? = some (first, j)) (hj : ledger.entries[j]? = some first) :
    exactValue first.value = exactValue best.value ∧ i ≤ j := by
  have hfinite := isFinite_of_getElem?_entries h hj
  have hbelow : ∀ v ∈ ledger.values, exactValue first.value ≤ exactValue v := by
    intro v hv
    obtain ⟨k, hk⟩ := List.mem_iff_getElem?.mp hv
    obtain ⟨other, hother, rfl⟩ := Ledger.exists_of_getElem?_values hk
    have hbefore : PlacedBefore (first, j) (other, k) := first_of_head?_placedElites hfirst hother
    exact exactValue_le_of_totalLe hfinite (isFinite_of_getElem?_entries h hother) hbefore.value_le
  have hvalue := Ledger.getElem?_values hj
  obtain ⟨v, hmem, hv, hleast⟩ := hbest.1.exact h
  obtain rfl : best.value = v := Option.some_inj.mp ((Ledger.getElem?_values hi).symm.trans hv)
  refine ⟨le_antisymm (hbelow _ hmem) (hleast _ (List.mem_of_getElem? hvalue)), hbest.2 ?_⟩
  refine ⟨first.value, hvalue, fun w hw => ?_⟩
  exact (not_lt_iff_exactValue_le (h w hw) hfinite).mpr (hbelow w hw)

/-- The first elite is the best observation, or it is the first negative zero and the best one is a positive zero
before it. -/
theorem first_eq_best_or_zeros (h : AllFiniteValues ledger.values)
    (hbest : IsLeast {k | NotAbove ledger.values k} i) (hi : ledger.entries[i]? = some best)
    (hfirst : (placedElites config ledger).head? = some (first, j)) (hj : ledger.entries[j]? = some first) :
    j = i ∨ (best.value = 0.0 ∧ first.value = -0.0 ∧ IsLeast {k | ledger.values[k]? = some (-0.0)} j) := by
  obtain ⟨hequal, hle⟩ := exactValue_first_eq_best h hbest hi hfirst hj
  have hbefore : PlacedBefore (first, j) (best, i) := first_of_head?_placedElites hfirst hi
  obtain hsame | ⟨hpositive, hnegative⟩ | ⟨hnegative, hpositive⟩ := eq_or_zeros_of_exactValue_eq
    (isFinite_of_getElem?_entries h hj) (isFinite_of_getElem?_entries h hi) hequal
  · refine Or.inl (le_antisymm (hbefore.position_le ?_) hle)
    rw [hsame]
    exact totalLe_refl _
  · exact absurd hbefore (not_placedBefore_of_zeros hpositive hnegative)
  · refine Or.inr ⟨hpositive, hnegative, ?_, ?_⟩
    · rw [← hnegative]
      exact Ledger.getElem?_values hj
    · intro k hk
      obtain ⟨other, hother, hzero⟩ := Ledger.exists_of_getElem?_values hk
      have hearlier : PlacedBefore (first, j) (other, k) := first_of_head?_placedElites hfirst hother
      refine hearlier.position_le ?_
      rw [hzero, hnegative]
      exact totalLe_refl _

end First

/-- The pool starts with a perturbation of the first elite, if it has a local part. -/
theorem head?_of_drawPool {space : Space Double} {config : OptimizerConfig} {ledger : Ledger} {batchSize : ℕ}
    {g g' : Generator} {pool : List Candidate} {first : Observation}
    (hfirst : (elites config ledger).head? = some first) (hlocal : 0 < localCount config batchSize)
    (h : drawPool space config ledger batchSize g = (some pool, g')) :
    pool.head? = some (perturb space (.ofFloat config.perturbationScale) first.candidate g).1 := by
  obtain ⟨near, far, between, hnear, -, rfl⟩ := exists_append_of_drawPool h
  obtain ⟨rest, helites⟩ := List.head?_eq_some_iff.mp hfirst
  obtain ⟨count, hcount⟩ := Nat.exists_eq_succ_of_ne_zero hlocal.ne'
  rw [hcount, helites, drawLocal, List.range_succ_eq_map, drawEach_cons] at hnear
  obtain ⟨rfl, -⟩ := Prod.mk.inj hnear
  simp

namespace Optimizer

variable {σ : Type} [Surrogate σ]

/-- After any history with an observation, the first elite, from which the pool starts, is equal in value to the best
observation of the ledger, and stands at the same position or later. The positions are different exactly if the best
observation has a positive zero for its value and some observation a negative one; then the first elite is the earliest
observation with a negative zero. -/
theorem first_elite (space : Space Double) (s : σ) (config : OptimizerConfig) (calls : List Call)
    (hobserved : ((start space s config).after calls).ledger.isEmpty = false) :
    let o := (start space s config).after calls
    ∃ best first i j,
      o.best = .ok best ∧ o.ledger.bestIndex = some i ∧ o.ledger.entries[i]? = some best ∧
      (elites config o.ledger).head? = some first ∧
      (placedElites config o.ledger).head? = some (first, j) ∧ o.ledger.entries[j]? = some first ∧
      (first.value == best.value) = true ∧ i ≤ j ∧
      (j = i ↔ ¬ (best.value = 0.0 ∧ -0.0 ∈ o.ledger.values)) ∧
      (j ≠ i → first.value = -0.0 ∧ IsLeast {k | o.ledger.values[k]? = some (-0.0)} j) ∧
      ∀ size pool g, drawPool o.space o.config o.ledger size o.generator = (some pool, g) →
        0 < localCount config size →
        pool.head? = some (perturb space (.ofFloat config.perturbationScale) first.candidate o.generator).1 := by
  intro o
  have hranked : o.ledger.Ranked := ranked_ledger_after space s config calls
  have hreached : Reached space config o := reached_after space s config calls
  have hledger : o.ledger.entries ≠ [] := Ledger.entries_ne_nil_of_isEmpty hobserved
  obtain ⟨i, best, hbestIndex, hi⟩ := hranked.exists_best hledger
  have hleast := (hranked.bestIndex_eq_some_iff i).mp hbestIndex
  obtain ⟨first, j, hfirst, hj, helite⟩ := exists_head?_placedElites config hledger
  obtain ⟨hequal, hle⟩ := exactValue_first_eq_best hranked.finite hleast hi hfirst hj
  have hcases := first_eq_best_or_zeros hranked.finite hleast hi hfirst hj
  have hok : o.best = .ok best := (hranked.best_eq_ok_iff best).mpr ⟨i, hleast, hi⟩
  refine ⟨best, first, i, j, hok, hbestIndex, hi, helite, hfirst, hj, ?_, hle, ⟨?_, ?_⟩, ?_, ?_⟩
  · exact (beq_iff_exactValue_eq (isFinite_of_getElem?_entries hranked.finite hj)
      (isFinite_of_getElem?_entries hranked.finite hi)).mpr hequal
  · rintro rfl ⟨hpositive, hnegative⟩
    obtain rfl : first = best := Option.some_inj.mp (hj.symm.trans hi)
    obtain ⟨other, hmem, hzero⟩ := List.mem_map.mp hnegative
    obtain ⟨k, hk⟩ := List.mem_iff_getElem?.mp hmem
    have hbefore : PlacedBefore (first, j) (other, k) := first_of_head?_placedElites hfirst hk
    exact not_placedBefore_of_zeros hpositive hzero hbefore
  · intro hnot
    refine hcases.resolve_right ?_
    rintro ⟨hpositive, -, hnegative⟩
    exact hnot ⟨hpositive, List.mem_of_getElem? hnegative.1⟩
  · intro hne
    exact (hcases.resolve_left hne).2
  · intro size pool g hpool hlocal
    rw [hreached.space_eq, hreached.config_eq] at hpool
    exact head?_of_drawPool helite hlocal hpool

/-! ### A search that has observed both zeros -/

theorem wellFormed_interval : WellFormed [(⟨"x", 0.0, 1.0⟩ : Parameter Double)] :=
  (fault?_eq_none_iff _).mp (by decide)

def intervalSpace : Space Double := ⟨_, wellFormed_interval⟩

/-- A search that suggests the first elite again: the whole pool is local, and no step leads away. -/
def stillConfig : OptimizerConfig :=
  { OptimizerConfig.standard with
    poolSize := 4
    localFraction := 1.0
    perturbationScale := 0.0
    eliteCount := 1 }

def zeroSearch : Optimizer IndifferentModel :=
  (start intervalSpace .indifferent stillConfig).after [.observe [[0.25], [0.75]] [0.0, -0.0]]

theorem entries_zeroSearch : zeroSearch.ledger.entries = [⟨[0.25], 0.0⟩, ⟨[0.75], -0.0⟩] := by
  decide +kernel

/-- The best observation is the first one, and the first elite is the second one. -/
theorem zeroSearch_disagrees :
    zeroSearch.ledger.isEmpty = false ∧ (∀ v ∈ zeroSearch.ledger.values, v.isFinite = true) ∧
    zeroSearch.best = .ok ⟨[0.25], 0.0⟩ ∧ zeroSearch.ledger.bestIndex = some 0 ∧
    (elites zeroSearch.config zeroSearch.ledger).head? = some ⟨[0.75], -0.0⟩ ∧
    (placedElites zeroSearch.config zeroSearch.ledger).head? = some (⟨[0.75], -0.0⟩, 1) := by
  have hledger : zeroSearch.ledger.entries ≠ [] := by
    rw [entries_zeroSearch]
    exact List.cons_ne_nil _ _
  have hearlier : zeroSearch.ledger.entries[0]? = some ⟨[0.25], 0.0⟩ := by
    rw [entries_zeroSearch, List.getElem?_cons_zero]
  have hlater : zeroSearch.ledger.entries[1]? = some ⟨[0.75], -0.0⟩ := by
    rw [entries_zeroSearch, List.getElem?_cons_succ, List.getElem?_cons_zero]
  obtain ⟨first, j, hfirst, hj, helite⟩ := exists_head?_placedElites zeroSearch.config hledger
  have hbefore : PlacedBefore (first, j) (⟨[0.75], -0.0⟩, 1) := first_of_head?_placedElites hfirst hlater
  have hcount : j < 2 := by
    obtain ⟨hlt, -⟩ := List.getElem?_eq_some_iff.mp hj
    rwa [entries_zeroSearch] at hlt
  have hne : j ≠ 0 := by
    rintro rfl
    obtain rfl : (⟨[0.25], 0.0⟩ : Observation) = first := Option.some_inj.mp (hearlier.symm.trans hj)
    exact not_placedBefore_of_zeros rfl rfl hbefore
  obtain rfl : j = 1 := by omega
  obtain rfl : (⟨[0.75], -0.0⟩ : Observation) = first := Option.some_inj.mp (hlater.symm.trans hj)
  refine ⟨by decide +kernel, by decide +kernel, ?_, by decide +kernel, helite, hfirst⟩
  exact (Ledger.best_eq_ok_iff_best? _ _).mpr (by decide +kernel)

theorem zeroSearch_first_elite :
    ∃ best first i j, zeroSearch.best = .ok best ∧ zeroSearch.ledger.bestIndex = some i ∧
      (placedElites zeroSearch.config zeroSearch.ledger).head? = some (first, j) ∧
      (first.value == best.value) = true ∧ i < j ∧ first.value = -0.0 := by
  have hbest : zeroSearch.best.toOption.map Observation.value = some 0.0 := by decide +kernel
  have hnegative : -0.0 ∈ zeroSearch.ledger.values := by
    rw [Ledger.values, entries_zeroSearch]
    exact List.mem_of_getElem? (i := 1) rfl
  obtain ⟨best, first, i, j, hok, hindex, -, -, hfirst, -, hequal, hle, hagree, hzeros, -⟩ :=
    first_elite intervalSpace IndifferentModel.indifferent stillConfig
      [.observe [[0.25], [0.75]] [0.0, -0.0]] (by decide +kernel)
  change zeroSearch.best = .ok best at hok
  rw [hok] at hbest
  have hne : j ≠ i := fun hsame => hagree.mp hsame ⟨Option.some_inj.mp hbest, hnegative⟩
  exact ⟨best, first, i, j, hok, hindex, hfirst, hequal, lt_of_le_of_ne hle hne.symm, (hzeros hne).1⟩

end Optimizer

end DelayTuning
