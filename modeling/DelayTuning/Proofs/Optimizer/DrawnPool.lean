import DelayTuning.Proofs.Binary64.Count
import DelayTuning.Proofs.Optimizer.Answered
import DelayTuning.Proofs.Optimizer.Elites
import DelayTuning.Proofs.Optimizer.LocalSearch

/-!
# The candidates of a pool, one by one

The pool for a batch is drawn from one stream of random numbers: first the perturbations of the elites, which take
turns, then uniform points until the pool has its size. The share of the local part may be any double. The pool is
never smaller than it should be, and a share above one makes it larger.

## Main definitions

- `DrawnInTurn`: how the candidates of a pool are drawn one after the other

## Main statements

- `exists_drawnInTurn`: every pool is drawn in this way
- `Optimizer.drawPool_drawn`: the pool of every state that has an observation
-/

namespace DelayTuning

/-- How the candidates of a pool are drawn, where `generators i` is the generator before candidate number `i`: the
first `count` ones are perturbations of the bases in turn, and the others are uniform. -/
structure DrawnInTurn (space : Space Double) (scale : Double) (bases : List Observation) (count : ℕ)
    (pool : List Candidate) (generators : ℕ → Generator) : Prop where
  near : ∀ i < count, ∃ base c, bases[i % bases.length]? = some base ∧ pool[i]? = some c ∧
    perturb space scale base.candidate (generators i) = (c, generators (i + 1))
  far : ∀ i c, count ≤ i → pool[i]? = some c → space.uniform (generators i) = (some c, generators (i + 1))

section Pool

variable {space : Space Double} {g g' : Generator}

/-- The perturbations of the local part, with the bases as observations. -/
theorem exists_generators_drawLocal (space : Space Double) (scale : Double) {bases : List Observation}
    (hbases : bases ≠ []) (count : ℕ) (g : Generator) :
    ∃ generators : ℕ → Generator, generators 0 = g ∧
      generators count = (drawLocal space scale (bases.map Observation.candidate) count g).2 ∧
      ∀ i < count, ∃ base c, bases[i % bases.length]? = some base ∧
        (drawLocal space scale (bases.map Observation.candidate) count g).1[i]? = some c ∧
        perturb space scale base.candidate (generators i) = (c, generators (i + 1)) := by
  obtain ⟨generators, hfirst, hlast, hdraws⟩ := exists_generators_drawEach
    (fun i g => perturb space scale ((bases.map Observation.candidate).getD
      (i % (bases.map Observation.candidate).length) []) g) (List.range count) g
  rw [List.length_range] at hlast
  refine ⟨generators, hfirst, hlast, ?_⟩
  intro i hi
  obtain ⟨c, hc, hdraw⟩ := hdraws i i (List.getElem?_range hi)
  have hturn : i % bases.length < bases.length := Nat.mod_lt i (List.length_pos_iff.mpr hbases)
  have hbase := List.getElem?_eq_getElem hturn
  refine ⟨bases[i % bases.length], c, hbase, hc, ?_⟩
  rw [← hdraw, List.length_map, List.getD_eq_getElem?_getD, List.getElem?_map, hbase, Option.map_some,
    Option.getD_some]

theorem exists_generators_drawUniform {count : ℕ} {points : List Candidate}
    (h : drawUniform space count g = (some points, g')) :
    ∃ generators : ℕ → Generator, generators 0 = g ∧ generators count = g' ∧
      ∀ i c, points[i]? = some c → space.uniform (generators i) = (some c, generators (i + 1)) := by
  have hlength : points.length = count := by
    simpa using length_of_drawEach? (congrArg Prod.fst h)
  obtain ⟨generators, hfirst, hlast, hdraws⟩ := exists_generators_drawEach? h
  rw [List.length_replicate] at hlast
  refine ⟨generators, hfirst, hlast, ?_⟩
  intro i c hc
  obtain ⟨hi, -⟩ := List.getElem?_eq_some_iff.mp hc
  have hunit : (List.replicate count ())[i]? = some () := by
    rw [List.getElem?_replicate, if_pos (by omega)]
  obtain ⟨d, hd, hdraw⟩ := hdraws i () hunit
  obtain rfl : c = d := Option.some_inj.mp (hc.symm.trans hd)
  exact hdraw

/-- Two sequences of generators, the second one from where the first one has come to after `count` draws. -/
theorem exists_joined {early late : ℕ → Generator} {count : ℕ} (h : late 0 = early count) :
    ∃ generators : ℕ → Generator, (∀ i ≤ count, generators i = early i) ∧
      ∀ i, generators (count + i) = late i := by
  refine ⟨fun i => if i < count then early i else late (i - count), ?_, ?_⟩
  · intro i hi
    obtain hlt | rfl := Nat.lt_or_eq_of_le hi
    · exact if_pos hlt
    · refine (if_neg (Nat.lt_irrefl i)).trans ?_
      rw [Nat.sub_self, h]
  · intro i
    refine (if_neg (by omega)).trans ?_
    rw [Nat.add_sub_cancel_left]

/-- Every pool is drawn in turn, from the generator that it is asked for with to the one that it leaves behind. -/
theorem exists_drawnInTurn {config : OptimizerConfig} {ledger : Ledger} {batchSize : ℕ} {pool : List Candidate}
    (hledger : ledger.entries ≠ [])
    (h : drawPool space config ledger batchSize g = (some pool, g')) :
    ∃ generators : ℕ → Generator, generators 0 = g ∧ generators pool.length = g' ∧
      DrawnInTurn space (.ofFloat config.perturbationScale) (elites config ledger) (localCount config batchSize)
        pool generators := by
  have helites : elites config ledger ≠ [] := elites_ne_nil hledger
  obtain ⟨early, hfirst, hbetween, hnear⟩ := exists_generators_drawLocal space
    (.ofFloat config.perturbationScale) helites (localCount config batchSize) g
  have hlength := length_of_drawPool h
  simp only [drawPool] at h
  rw [← hbetween] at h
  obtain ⟨hpool, hlast⟩ := Prod.mk.inj h
  obtain ⟨points, hpoints, rfl⟩ := Option.map_eq_some_iff.mp hpool
  obtain ⟨late, hlateFirst, hlateLast, hfar⟩ := exists_generators_drawUniform (Prod.ext hpoints hlast)
  obtain ⟨generators, hearly, hlate⟩ := exists_joined hlateFirst
  have hcount : (drawLocal space (.ofFloat config.perturbationScale)
      ((elites config ledger).map Observation.candidate) (localCount config batchSize) g).1.length =
        localCount config batchSize := by
    rw [drawLocal, length_drawEach, List.length_range]
  refine ⟨generators, (hearly 0 (Nat.zero_le _)).trans hfirst, ?_, ?_, ?_⟩
  · have htotal : max (poolSizeFor config batchSize) (localCount config batchSize) =
        localCount config batchSize + (poolSizeFor config batchSize - localCount config batchSize) := by
      omega
    rw [hlength, htotal, hlate, hlateLast]
  · intro i hi
    obtain ⟨base, c, hbase, hc, hdraw⟩ := hnear i hi
    refine ⟨base, c, hbase, ?_, ?_⟩
    · rw [List.getElem?_append_left (by omega), hc]
    · rw [hearly i hi.le, hearly (i + 1) hi]
      exact hdraw
  · intro i c hi hc
    obtain ⟨k, rfl⟩ := Nat.exists_eq_add_of_le hi
    rw [List.getElem?_append_right (by omega), hcount, Nat.add_sub_cancel_left] at hc
    rw [hlate, Nat.add_assoc, hlate]
    exact hfar k c hc

end Pool

namespace DrawnInTurn

variable {space : Space Double} {scale : Double} {bases : List Observation} {count : ℕ} {pool : List Candidate}
  {generators : ℕ → Generator}

/-- In the local part, each coordinate is one of the base that has been moved by a step of the local search. -/
theorem moves (h : DrawnInTurn space scale bases count pool generators) {i : ℕ} (hi : i < count) :
    ∃ base near, bases[i % bases.length]? = some base ∧ pool[i]? = some near ∧
      ∀ (j : ℕ) x, near[j]? = some x →
        ∃ p y, space.parameters[j]? = some p ∧ base.candidate[j]? = some y ∧ p.Moves scale y x := by
  obtain ⟨base, near, hbase, hnear, hdraw⟩ := h.near i hi
  refine ⟨base, near, hbase, hnear, ?_⟩
  intro j x hx
  have hmoved : (perturb space scale base.candidate (generators i)).1 = near := congrArg Prod.fst hdraw
  rw [← hmoved] at hx
  exact moves_of_getElem?_perturb hx

/-- Behind the local part, each candidate lies within the bounds. -/
theorem validate (h : DrawnInTurn space scale bases count pool generators) {i : ℕ} (hi : count ≤ i)
    {c : Candidate} (hc : pool[i]? = some c) : space.validate c = true :=
  Space.validate_of_uniform (congrArg Prod.fst (h.far i c hi hc))

end DrawnInTurn

namespace Optimizer

variable {σ : Type} [Surrogate σ]

/-- After any history with an observation, in a space of finite widths, the pool for a batch is drawn whatever the
parameters of the optimizer say. It has the size that is asked for, or that of its local part if this is larger; the
share of the local part is rounded to a count, and a NaN gives none. Every candidate has one coordinate for each
parameter of the space. The perturbed observations are as many as asked for, at least one and at most all; they stand
at different positions of the ledger, the lower ones first, and no other observation is strictly lower. They take
turns, and the candidates behind the local part are uniform points within the bounds. -/
theorem drawPool_drawn (space : Space Double) (s : σ) (config : OptimizerConfig) (calls : List Call)
    (hwidths : space.HasFiniteWidths)
    (hobserved : ((start space s config).after calls).ledger.isEmpty = false) (batchSize : ℕ) :
    let o := (start space s config).after calls
    let size := max config.poolSize (4 * batchSize)
    let scale := Double.ofFloat config.perturbationScale
    let best := elites config o.ledger
    let count := localCount config batchSize
    ∃ pool g generators,
      drawPool o.space o.config o.ledger batchSize o.generator = (some pool, g) ∧
      RoundsToCount (Float.ofNat size * config.localFraction) count ∧
      pool.length = max size count ∧ (∀ c ∈ pool, c.length = space.dimension) ∧
      best.length = min (max config.eliteCount 1) o.ledger.count ∧ 0 < best.length ∧
      (∃ placed, placed.map Prod.fst = best ∧ o.ledger.Lowest placed) ∧
      generators 0 = o.generator ∧ generators pool.length = g ∧
      DrawnInTurn space scale best count pool generators ∧
      (∀ i < count, ∃ base near, best[i % best.length]? = some base ∧ pool[i]? = some near ∧
        ∀ (j : ℕ) x, near[j]? = some x →
          ∃ p y, space.parameters[j]? = some p ∧ base.candidate[j]? = some y ∧ p.Moves scale y x) ∧
      ∀ i c, count ≤ i → pool[i]? = some c → space.validate c = true := by
  intro o size scale best count
  have hreached : Reached space config o := reached_after space s config calls
  have hfinite : AllFiniteValues o.ledger.values := (ranked_ledger_after space s config calls).finite
  have hledger : o.ledger.entries ≠ [] := Ledger.entries_ne_nil_of_isEmpty hobserved
  have hsome := isSome_drawPool hwidths config o.ledger batchSize o.generator
  rw [hreached.space_eq, hreached.config_eq]
  obtain ⟨pool, hpool⟩ := Option.isSome_iff_exists.mp hsome
  have hdraw : drawPool space config o.ledger batchSize o.generator =
      (some pool, (drawPool space config o.ledger batchSize o.generator).2) := Prod.ext hpool rfl
  obtain ⟨generators, hfirst, hlast, hturn⟩ := exists_drawnInTurn hledger hdraw
  refine ⟨pool, _, generators, hdraw, roundsToCount_roundToNat _,
    length_of_drawPool hdraw, length_of_mem_drawPool hledger hreached.dimension hdraw,
    length_elites config o.ledger, List.length_pos_iff.mpr (elites_ne_nil hledger),
    ⟨placedElites config o.ledger, map_fst_placedElites config o.ledger, lowest_placedElites hfinite config⟩,
    hfirst, hlast, hturn, fun i hi => hturn.moves hi, fun i c hi hc => hturn.validate hi hc⟩

/-! ### A local part that is larger than the pool should be -/

/-- Parameters that ask for more perturbations than candidates, and for more elites than there are observations. -/
def eagerConfig : OptimizerConfig :=
  { OptimizerConfig.standard with
    poolSize := 8
    localFraction := 1.5
    eliteCount := 5 }

def eagerSearch : Optimizer IndifferentModel :=
  (start intervalSpace .indifferent eagerConfig).after [.observe [[0.25], [0.75]] [2.0, 1.0]]

theorem eagerSearch_drawPool_drawn :
    ∃ pool g generators,
      drawPool eagerSearch.space eagerSearch.config eagerSearch.ledger 1 eagerSearch.generator = (some pool, g) ∧
      pool.length = 12 ∧ (elites eagerConfig eagerSearch.ledger).length = 2 ∧
      DrawnInTurn intervalSpace (.ofFloat eagerConfig.perturbationScale) (elites eagerConfig eagerSearch.ledger) 12
        pool generators := by
  have hobserved : eagerSearch.ledger.count = 2 := by decide +kernel
  have hcount : localCount eagerConfig 1 = 12 := by decide
  obtain ⟨pool, g, generators, hpool, -, hlength, -, helites, -, -, -, -, hturn, -, -⟩ :=
    drawPool_drawn intervalSpace IndifferentModel.indifferent eagerConfig
      [.observe [[0.25], [0.75]] [2.0, 1.0]] (by decide +kernel) (by decide +kernel) 1
  rw [hcount] at hlength hturn
  change (elites eagerConfig eagerSearch.ledger).length = min (max 5 1) eagerSearch.ledger.count at helites
  rw [hobserved] at helites
  exact ⟨pool, g, generators, hpool, hlength, helites, hturn⟩

end Optimizer

end DelayTuning
