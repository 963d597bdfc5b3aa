import DelayTuning.Proofs.Optimizer.InitialDesign
import DelayTuning.Proofs.Optimizer.Reached
import DelayTuning.Proofs.Space.Clamp

/-!
# Where the local search can go

The local search moves observed points and then brings them back into the bounds. An observed point may have
any coordinates. What a step makes of a coordinate is brought back as long as it is a number; a step that starts
at a NaN leads to a NaN, and so may an infinite step that starts at an infinite coordinate. A NaN stays where it
is, and so it is suggested.

## Main definitions

- `Parameter.Moves`: where the steps of the local search lead
- `Parameter.Overshoots`: a parameter with steps that are too long to be numbers
- `Parameter.Spoiled`: the coordinates from which a step can lead to a NaN

## Main statements

- `Parameter.Moves.contains_or_spoiled`: a step ends within the bounds unless it starts at a spoiled coordinate
- `Optimizer.suggest_within`: which suggested candidates are out of bounds, and why
-/

namespace DelayTuning

/-- The interval from which the directions of the steps are drawn. -/
def directions : Parameter Double := ⟨"direction", -1.0, 1.0⟩

namespace Parameter

/-- A step of the local search takes the coordinate `y` to `x`. -/
def Moves (scale : Double) (p : Parameter Double) (y x : Double) : Prop :=
  ∃ direction, directions.contains direction = true ∧
    x = Scalar.clamp p.lower p.upper (direction * scale * p.width + y)

/-- A step of the local search can be so long that it is infinite. -/
def Overshoots (scale : Double) (p : Parameter Double) : Prop :=
  ∃ direction, directions.contains direction = true ∧
    (direction * scale * p.width).toFloat.isFinite = false

/-- A coordinate from which a step can lead to a NaN. -/
def Spoiled (scale : Double) (p : Parameter Double) (y : Double) : Prop :=
  y.toFloat.isNaN = true ∨ (y.toFloat.isFinite = false ∧ p.Overshoots scale)

end Parameter

/-- An observation has a spoiled coordinate in the given place. -/
def Ledger.SpoiledAt (scale : Double) (ledger : Ledger) (i : ℕ) (p : Parameter Double) : Prop :=
  ∃ observation ∈ ledger.entries, ∃ y, observation.candidate[i]? = some y ∧ p.Spoiled scale y

/-! ### One step -/

section Step

variable {direction scale : Double} {p : Parameter Double}

theorem bounded_directions : directions.Bounded := by
  decide

theorem exactValue_direction (h : directions.contains direction = true) :
    direction.toFloat.isFinite = true ∧ |exactValue direction.toFloat| ≤ 1 := by
  have hone : (1.0 : Float).isFinite = true := by decide
  have hlower : directions.lower.toFloat = -1.0 := by decide
  have hupper : directions.upper.toFloat = 1.0 := by decide
  obtain ⟨hneg, hvalue⟩ := exactValue_neg hone
  obtain ⟨hlow, hhigh⟩ := Parameter.contains_iff.mp h
  rw [hlower] at hlow
  rw [hupper] at hhigh
  have hfinite := isFinite_of_le_of_le hneg hone hlow hhigh
  rw [le_iff_exactValue_le hneg hfinite, hvalue, exactValue_one] at hlow
  rw [le_iff_exactValue_le hfinite hone, exactValue_one] at hhigh
  exact ⟨hfinite, abs_le.mpr ⟨hlow, hhigh⟩⟩

theorem isFinite_mul_of_abs_le_one {d s : Float} (hd : d.isFinite = true) (hone : |exactValue d| ≤ 1)
    (hs : s.isFinite = true) : (d * s).isFinite = true := by
  have hround := roundsTo_mul hd hs
  obtain ⟨hneg, hvalue⟩ := exactValue_neg hs
  have habs : |exactValue d * exactValue s| ≤ |exactValue s| := by
    rw [abs_mul]
    exact mul_le_of_le_one_left (abs_nonneg _) hone
  obtain ⟨hlow, hhigh⟩ := abs_le.mp habs
  -- the product lies between the factor and its negative, one of which is the lower one
  obtain hsign | hsign := abs_cases (exactValue s)
  · rw [hsign.1] at hlow hhigh
    rw [← hvalue] at hlow
    exact hround.isFinite hneg hs hlow hhigh
  · rw [hsign.1] at hlow hhigh
    rw [neg_neg] at hlow
    rw [← hvalue] at hhigh
    exact hround.isFinite hs hneg hlow hhigh

theorem isNaN_step_eq_false (h : directions.contains direction = true) (hscale : scale.toFloat.isFinite = true)
    (hwidth : Scalar.isFinite p.width = true) :
    (direction * scale * p.width).toFloat.isNaN = false := by
  obtain ⟨hdirection, hone⟩ := exactValue_direction h
  have hfactor := isFinite_mul_of_abs_le_one hdirection hone hscale
  rw [Double.toFloat_mul, Double.toFloat_mul]
  exact (roundsTo_mul hfactor hwidth).isNaN_eq_false

/-- A step ends within the bounds, or at a NaN, and then it started at a spoiled coordinate. -/
theorem Parameter.Moves.contains_or_spoiled {x y : Double} (hp : p.Bounded)
    (hscale : scale.toFloat.isFinite = true) (hwidth : Scalar.isFinite p.width = true)
    (h : p.Moves scale y x) :
    p.contains x = true ∨ (x.toFloat.isNaN = true ∧ p.Spoiled scale y) := by
  obtain ⟨direction, hdirection, rfl⟩ := h
  have hstep := isNaN_step_eq_false hdirection hscale hwidth
  by_cases hsum : (direction * scale * p.width + y).toFloat.isNaN = true
  · rw [clamp_of_isNaN hsum]
    refine Or.inr ⟨hsum, ?_⟩
    by_cases hy : y.toFloat.isNaN = true
    · exact Or.inl hy
    -- neither summand is a NaN, so both of them are infinite
    rw [Double.toFloat_add] at hsum
    refine Or.inr ⟨?_, direction, hdirection, ?_⟩
    · by_contra hfinite
      rw [isNaN_add_eq_false hstep (Bool.eq_true_of_not_eq_false hfinite)] at hsum
      cases hsum
    · by_contra hfinite
      rw [isNaN_finite_add_eq_false (Bool.eq_true_of_not_eq_false hfinite)
        (Bool.eq_false_of_not_eq_true hy)] at hsum
      cases hsum
  · exact Or.inl (contains_clamp hp (Bool.eq_false_of_not_eq_true hsum))

theorem Parameter.not_spoiled_of_isFinite {y : Double} (hy : y.toFloat.isFinite = true) :
    ¬ p.Spoiled scale y := by
  rintro (hnan | ⟨hinfinite, -⟩)
  · rw [isNaN_eq_false_of_isFinite hy] at hnan
    cases hnan
  · rw [hy] at hinfinite
    cases hinfinite

theorem Parameter.Moves.isNaN {x y : Double} (h : p.Moves scale y x) (hy : y.toFloat.isNaN = true) :
    x.toFloat.isNaN = true := by
  obtain ⟨direction, -, rfl⟩ := h
  have hsum : (direction * scale * p.width + y).toFloat.isNaN = true := by
    rw [Double.toFloat_add]
    exact isNaN_add_of_isNaN_right hy
  rwa [clamp_of_isNaN hsum]

end Step

/-! ### Perturbed points -/

theorem contains_direction (g : Generator) :
    directions.contains (g.between (-1.0 : Double) 1.0).1 = true :=
  contains_between bounded_directions (by decide) g

theorem getElem?_perturbCoordinates {scale : Double} {parameters : List (Parameter Double)}
    {base : Candidate} {g : Generator} {i : ℕ} {x : Double}
    (h : (perturbCoordinates scale parameters base g).1[i]? = some x) :
    ∃ p y direction, parameters[i]? = some p ∧ base[i]? = some y ∧
      directions.contains direction = true ∧ x = direction * scale * p.width + y := by
  induction parameters generalizing base g i with
  | nil => cases h
  | cons p rest ih =>
    cases base with
    | nil => cases h
    | cons y base =>
      cases i with
      | zero =>
        cases h
        exact ⟨p, y, _, rfl, rfl, contains_direction g, rfl⟩
      | succ i => exact ih h

/-- Every coordinate of a perturbed point comes from the one of the base by a step. -/
theorem moves_of_getElem?_perturb {space : Space Double} {scale : Double} {base : Candidate}
    {g : Generator} {i : ℕ} {x : Double} (h : (perturb space scale base g).1[i]? = some x) :
    ∃ p y, space.parameters[i]? = some p ∧ base[i]? = some y ∧ p.Moves scale y x := by
  rw [perturb] at h
  obtain ⟨p, moved, hp, hmoved, rfl⟩ := List.getElem?_zipWith_eq_some.mp h
  obtain ⟨q, y, direction, hq, hy, hdirection, rfl⟩ := getElem?_perturbCoordinates hmoved
  obtain rfl : p = q := Option.some_inj.mp (hp.symm.trans hq)
  exact ⟨p, y, hp, hy, direction, hdirection, rfl⟩

/-- A coordinate that is a NaN stays one. -/
theorem exists_isNaN_of_perturb {space : Space Double} {base : Candidate} {i : ℕ} {p : Parameter Double}
    {y : Double} (hp : space.parameters[i]? = some p) (hy : base[i]? = some y)
    (hnan : y.toFloat.isNaN = true) (scale : Double) (g : Generator) :
    ∃ x ∈ (perturb space scale base g).1, x.toFloat.isNaN = true := by
  obtain ⟨hi, -⟩ := List.getElem?_eq_some_iff.mp hp
  obtain ⟨hi', -⟩ := List.getElem?_eq_some_iff.mp hy
  have hlt : i < (perturb space scale base g).1.length := by
    rw [length_perturb]
    exact lt_min hi hi'
  have hx := List.getElem?_eq_getElem hlt
  obtain ⟨q, z, -, hz, hmoves⟩ := moves_of_getElem?_perturb hx
  obtain rfl : y = z := Option.some_inj.mp (hy.symm.trans hz)
  exact ⟨_, List.mem_of_getElem? hx, hmoves.isNaN hnan⟩

/-- A candidate of the pool is within bounds, or it comes from an observation by a step for each coordinate. -/
theorem perturbed_of_mem_drawPool {space : Space Double} {config : OptimizerConfig} {ledger : Ledger}
    {batchSize : ℕ} {g g' : Generator} {pool : List Candidate} (hledger : ledger.entries ≠ [])
    (h : drawPool space config ledger batchSize g = (some pool, g')) :
    ∀ c ∈ pool,
      (localCount config batchSize < poolSizeFor config batchSize ∧ space.validate c = true) ∨
      ∃ observation ∈ ledger.entries, ∃ drawn,
        c = (perturb space (.ofFloat config.perturbationScale) observation.candidate drawn).1 := by
  obtain ⟨near, far, between, hnear, hfar, rfl⟩ := exists_append_of_drawPool h
  intro c hc
  obtain hc | hc := List.mem_append.mp hc
  · right
    have hbases : (elites config ledger).map Observation.candidate ≠ [] := by
      simpa using elites_ne_nil hledger
    have hmem : c ∈ (drawLocal space (.ofFloat config.perturbationScale)
        ((elites config ledger).map Observation.candidate) (localCount config batchSize) g).1 := by
      rw [hnear]
      exact hc
    refine forall_mem_drawEach (P := fun c => ∃ observation ∈ ledger.entries, ∃ drawn,
      c = (perturb space (.ofFloat config.perturbationScale) observation.candidate drawn).1)
      ?_ g c hmem
    intro i _ drawn
    obtain ⟨observation, helite, hbase⟩ := List.mem_map.mp (getD_mod_mem hbases i)
    exact ⟨observation, mem_entries_of_mem_elites helite, drawn, by rw [hbase]⟩
  · have hlength : far.length = poolSizeFor config batchSize - localCount config batchSize := by
      simpa using length_of_drawEach? hfar
    have hpos := List.length_pos_of_mem hc
    exact Or.inl ⟨by omega, validate_of_drawUniform hfar c hc⟩

namespace Optimizer

variable {σ : Type} [Surrogate σ]

theorem Reached.contains_or_spoiledAt {space : Space Double} {config : OptimizerConfig}
    {o next : Optimizer σ} (ho : Reached space config o) (hwidths : space.HasFiniteWidths)
    (hscale : config.perturbationScale.isFinite = true) {size : ℕ} {batch : List Candidate}
    (hledger : o.ledger.entries ≠ []) (h : o.suggest size = (.ok batch, next)) {candidate : Candidate}
    (hc : candidate ∈ batch) :
    candidate.length = space.dimension ∧
      ∀ i p x, space.parameters[i]? = some p → candidate[i]? = some x → p.contains x = true ∨
        (x.toFloat.isNaN = true ∧ o.ledger.SpoiledAt (.ofFloat config.perturbationScale) i p) := by
  obtain ⟨pool, g, hpool, hbatch⟩ := mem_drawPool_of_suggest hledger h
  rw [ho.space_eq, ho.config_eq] at hpool
  refine ⟨ho.length_of_mem_suggest h candidate hc, ?_⟩
  intro i p x hp hx
  obtain ⟨-, hvalid⟩ | ⟨observation, hmem, drawn, rfl⟩ :=
    perturbed_of_mem_drawPool hledger hpool candidate (hbatch candidate hc)
  · exact Or.inl ((Space.validate_iff_getElem?.mp hvalid).2 i p x hp hx)
  obtain ⟨q, y, hq, hy, hmoves⟩ := moves_of_getElem?_perturb hx
  obtain rfl : p = q := Option.some_inj.mp (hp.symm.trans hq)
  have hparameter := List.mem_of_getElem? hp
  have hscale' : (Double.ofFloat config.perturbationScale).toFloat.isFinite = true := by
    rwa [Double.toFloat_ofFloat_self]
  refine (hmoves.contains_or_spoiled (space.wellFormed.bounded p hparameter) hscale'
    (hwidths p hparameter)).imp_right ?_
  rintro ⟨hnan, hspoiled⟩
  exact ⟨hnan, observation, hmem, y, hy, hspoiled⟩

/-- Once something has been observed, whatever it was, every suggested candidate has a coordinate for each
parameter, and it is within bounds exactly if none of them is a NaN. A coordinate that is out of bounds is a NaN,
and then an observation has a spoiled coordinate in the same place. So a search that has observed no NaN, and no
infinite coordinate where its steps can be infinite, stays within the bounds. -/
theorem suggest_within (space : Space Double) (s : σ) (config : OptimizerConfig) (calls : List Call)
    (hwidths : space.HasFiniteWidths) (hscale : config.perturbationScale.isFinite = true) {size : ℕ}
    {batch : List Candidate} {next : Optimizer σ}
    (hobserved : ((start space s config).after calls).ledger.isEmpty = false)
    (h : ((start space s config).after calls).suggest size = (.ok batch, next)) :
    let ledger := ((start space s config).after calls).ledger
    let scale := Double.ofFloat config.perturbationScale
    ∀ candidate ∈ batch, candidate.length = space.dimension ∧
      (space.validate candidate = true ↔ ∀ x ∈ candidate, x.toFloat.isNaN = false) ∧
      (∀ i p x, space.parameters[i]? = some p → candidate[i]? = some x → p.contains x = false →
        x.toFloat.isNaN = true ∧ ledger.SpoiledAt scale i p) ∧
      ((∀ i p, space.parameters[i]? = some p → ¬ ledger.SpoiledAt scale i p) →
        space.validate candidate = true) := by
  intro ledger scale candidate hc
  have hledger : ledger.entries ≠ [] := by
    intro hnil
    rw [Ledger.isEmpty, hnil] at hobserved
    cases hobserved
  obtain ⟨hlength, hcoordinate⟩ :=
    (reached_after space s config calls).contains_or_spoiledAt hwidths hscale hledger h hc
  refine ⟨hlength, ⟨?_, ?_⟩, ?_, ?_⟩
  · intro hvalid
    exact Space.isNaN_eq_false_of_validate hvalid
  · intro hnumbers
    refine Space.validate_iff_getElem?.mpr ⟨hlength, ?_⟩
    intro i p x hp hx
    refine (hcoordinate i p x hp hx).resolve_right ?_
    rintro ⟨hnan, -⟩
    rw [hnumbers x (List.mem_of_getElem? hx)] at hnan
    cases hnan
  · intro i p x hp hx hout
    refine (hcoordinate i p x hp hx).resolve_left ?_
    rw [hout]
    exact Bool.false_ne_true
  · intro hunspoiled
    refine Space.validate_iff_getElem?.mpr ⟨hlength, ?_⟩
    intro i p x hp hx
    refine (hcoordinate i p x hp hx).resolve_right ?_
    rintro ⟨-, hspoiled⟩
    exact hunspoiled i p hp hspoiled

/-! ### Searches that have observed one candidate -/

/-- A search with a small pool near the one candidate that has been observed. -/
def informedSearch (space : Space Double) (candidate : Candidate) : Optimizer IndifferentModel :=
  (start space .indifferent
    { OptimizerConfig.standard with poolSize := 4, localFraction := 1.0 }).after
      [.observe [candidate] [1.0]]

def farCandidate : Candidate := List.replicate 10 1000.0

/-- From a point that is far outside of the bounds the search returns to them. -/
theorem farCandidate_suggest_within :
    ∃ batch next, (informedSearch delaySpace farCandidate).suggest 2 = (.ok batch, next) ∧
      ∀ candidate ∈ batch, delaySpace.validate candidate = true := by
  have hok : ((informedSearch delaySpace farCandidate).suggest 2).1.isOk = true := by decide
  have hentries : (informedSearch delaySpace farCandidate).ledger.entries = [⟨farCandidate, 1.0⟩] := by
    decide
  rcases hsuggest : (informedSearch delaySpace farCandidate).suggest 2 with ⟨_ | batch, next⟩
  · rw [hsuggest] at hok
    cases hok
  refine ⟨batch, next, rfl, ?_⟩
  intro candidate hcandidate
  obtain ⟨-, -, -, hunspoiled⟩ := suggest_within delaySpace IndifferentModel.indifferent
    { OptimizerConfig.standard with poolSize := 4, localFraction := 1.0 }
    [.observe [farCandidate] [1.0]] (by decide) (by decide) (by decide)
    hsuggest candidate hcandidate
  apply hunspoiled
  rintro i p - ⟨observation, hmem, y, hy, hspoiled⟩
  have hfinite : ∀ y ∈ farCandidate, y.toFloat.isFinite = true := by decide
  obtain rfl := List.mem_singleton.mp (hentries ▸ hmem)
  exact Parameter.not_spoiled_of_isFinite (hfinite y (List.mem_of_getElem? hy)) hspoiled

/-- A NaN that has been observed is suggested again. -/
theorem nan_suggest_within :
    pointSpace.HasFiniteWidths ∧
    (informedSearch pointSpace [.nan false]).config.perturbationScale.isFinite = true ∧
    (informedSearch pointSpace [.nan false]).ledger.isEmpty = false ∧
    ∃ batch next, (informedSearch pointSpace [.nan false]).suggest 1 = (.ok batch, next) ∧
      ∃ candidate ∈ batch, pointSpace.validate candidate = false := by
  have hok : ((informedSearch pointSpace [.nan false]).suggest 1).1.isOk = true := by decide
  have hentries : (informedSearch pointSpace [.nan false]).ledger.entries = [⟨[.nan false], 1.0⟩] := by
    decide
  have hlocal : ¬ localCount (informedSearch pointSpace [.nan false]).config 1 <
      poolSizeFor (informedSearch pointSpace [.nan false]).config 1 := by decide
  refine ⟨by decide, by decide, by decide, ?_⟩
  rcases hsuggest : (informedSearch pointSpace [.nan false]).suggest 1 with ⟨_ | batch, next⟩
  · rw [hsuggest] at hok
    cases hok
  have hledger : (informedSearch pointSpace [.nan false]).ledger.entries ≠ [] := by
    rw [hentries]
    exact List.cons_ne_nil _ _
  obtain ⟨pool, g, hpool, hbatch⟩ := mem_drawPool_of_suggest hledger hsuggest
  obtain ⟨candidate, hcandidate⟩ : ∃ candidate, candidate ∈ batch := by
    apply List.exists_mem_of_length_pos
    rw [length_of_suggest hsuggest]
    exact Nat.one_pos
  refine ⟨batch, next, rfl, candidate, hcandidate, ?_⟩
  -- the whole pool is local, so the candidate is a perturbation of the NaN
  obtain ⟨hlt, -⟩ | ⟨observation, hmem, drawn, rfl⟩ :=
    perturbed_of_mem_drawPool hledger hpool candidate (hbatch candidate hcandidate)
  · exact absurd hlt hlocal
  obtain rfl := List.mem_singleton.mp (hentries ▸ hmem)
  have hparameter : pointSpace.parameters[0]? = some ⟨"x", 0.5, 0.5⟩ := rfl
  have hcoordinate : ([.nan false] : Candidate)[0]? = some (.nan false) := rfl
  obtain ⟨x, hx, hnan⟩ := exists_isNaN_of_perturb hparameter hcoordinate rfl _ drawn
  rw [Bool.eq_false_iff]
  intro hvalid
  rw [Space.isNaN_eq_false_of_validate hvalid x hx] at hnan
  cases hnan

end Optimizer

end DelayTuning
