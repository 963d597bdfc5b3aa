import DelayTuning.Proofs.Optimizer.History

/-!
# Batches are recorded as a whole

Whatever is wrong with a batch of candidates and values is found before the first of them is recorded, and what is
found is the first fault in a fixed order: first the two lengths, then the candidates, then the values. A batch
without a fault has only finite values, so the ledger takes all of them, one after the other.

## Main definitions

- `FirstFault`: what is wrong with a batch, in order of precedence

## Main statements

- `Ledger.foldlM_append_of_finite`: the ledger takes finite values one after the other
- `Optimizer.batchFault?_eq_some_iff`: the fault of a batch is its first one
- `Optimizer.observe_whole`: a batch is recorded as a whole, or nothing changes
-/

namespace DelayTuning

/-- The first fault of a batch for a space of the given dimension: the numbers of candidates and values differ;
or else a candidate has the wrong length, and no candidate before it has; or else a value is not finite, and all
values before it are. -/
inductive FirstFault (dimension : Nat) (candidates : List Candidate) (values : List Float) :
    TuneError → Prop
  | lengths (hlength : candidates.length ≠ values.length) :
    FirstFault dimension candidates values (.shapeMismatch candidates.length values.length)
  | candidate {before after : List Candidate} {c : Candidate}
    (hlength : candidates.length = values.length) (hsplit : candidates = before ++ c :: after)
    (hbefore : ∀ d ∈ before, d.length = dimension) (hc : c.length ≠ dimension) :
    FirstFault dimension candidates values (.shapeMismatch dimension c.length)
  | value {before after : List Float} {v : Float} (hlength : candidates.length = values.length)
    (hdimension : ∀ c ∈ candidates, c.length = dimension) (hsplit : values = before ++ v :: after)
    (hbefore : ∀ w ∈ before, w.isFinite = true) (hv : v.isFinite = false) :
    FirstFault dimension candidates values (.nonFiniteValue before.length v)

/-- Observations with finite values are taken one after the other, and none of them is refused. -/
theorem Ledger.foldlM_append_of_finite (l : Ledger) {observations : List Observation}
    (h : ∀ observation ∈ observations, observation.value.isFinite = true) :
    observations.foldlM append l = .ok (l.extend observations) := by
  induction observations generalizing l with
  | nil => rfl
  | cons observation rest ih =>
    obtain ⟨hfirst, hrest⟩ := List.forall_mem_cons.mp h
    rw [List.foldlM_cons, append_of_isFinite l hfirst]
    exact ih _ hrest

namespace Optimizer

variable {σ : Type}

theorem observations_zip (candidates : List Candidate) (values : List Float) :
    observations (candidates.zip values) = List.zipWith Observation.mk candidates values :=
  List.map_uncurry_zip_eq_zipWith

/-- What is looked for among the candidates is the first one of a wrong length. -/
theorem find?_length_eq_some_iff {dimension : Nat} {candidates : List Candidate} {c : Candidate} :
    (candidates.find? fun d => d.length != dimension) = some c ↔
      ∃ before after, candidates = before ++ c :: after ∧ (∀ d ∈ before, d.length = dimension) ∧
        c.length ≠ dimension := by
  rw [List.find?_eq_some_iff_append]
  simp only [bne_iff_ne, Bool.not_eq_true', bne_eq_false_iff_eq]
  constructor
  · rintro ⟨hc, before, after, hsplit, hbefore⟩
    exact ⟨before, after, hsplit, hbefore, hc⟩
  · rintro ⟨before, after, hsplit, hbefore, hc⟩
    exact ⟨hc, before, after, hsplit, hbefore⟩

/-- What is looked for among the values is the first one that is not finite, with its index. -/
theorem find?_zipIdx_eq_some_iff {values : List Float} {v : Float} {i : Nat} :
    (values.zipIdx.find? fun (value, _) => !value.isFinite) = some (v, i) ↔
      ∃ before after, values = before ++ v :: after ∧ (∀ w ∈ before, w.isFinite = true) ∧
        v.isFinite = false ∧ i = before.length := by
  rw [List.find?_eq_some_iff_append]
  simp only [Bool.not_eq_true', Bool.not_eq_false']
  constructor
  · rintro ⟨hv, numbered, later, hsplit, hbefore⟩
    obtain ⟨before, rest, rfl, rfl, hrest⟩ := List.zipIdx_eq_append_iff.mp hsplit
    obtain ⟨w, after, rfl, hfirst, -⟩ := List.zipIdx_eq_cons_iff.mp hrest.symm
    obtain ⟨rfl, hi⟩ := Prod.mk.inj hfirst
    refine ⟨before, after, rfl, ?_, hv, by omega⟩
    intro w hw
    obtain ⟨j, hj, rfl⟩ := List.getElem_of_mem hw
    exact hbefore (before[j], j) (by simp [List.mem_zipIdx_iff_getElem?])
  · rintro ⟨before, after, rfl, hbefore, hv, rfl⟩
    refine ⟨hv, before.zipIdx, after.zipIdx (before.length + 1), ?_, ?_⟩
    · rw [List.zipIdx_append, List.zipIdx_cons, Nat.zero_add]
    · intro entry hentry
      exact hbefore entry.1 (List.fst_mem_of_mem_zipIdx hentry)

/-- The fault that a batch is refused for is its first one. -/
theorem batchFault?_eq_some_iff (o : Optimizer σ) {candidates : List Candidate} {values : List Float}
    {e : TuneError} :
    o.batchFault? candidates values = some e ↔ FirstFault o.space.dimension candidates values e := by
  rw [batchFault?]
  constructor
  · intro h
    split at h
    · next hlength =>
      obtain rfl := Option.some.inj h
      exact .lengths hlength
    next hlength =>
    split at h
    · next c hfind =>
      obtain rfl := Option.some.inj h
      obtain ⟨before, after, hsplit, hbefore, hc⟩ := find?_length_eq_some_iff.mp hfind
      exact .candidate (Decidable.not_not.mp hlength) hsplit hbefore hc
    · next hnone =>
      obtain ⟨⟨v, i⟩, hfind, rfl⟩ := Option.map_eq_some_iff.mp h
      obtain ⟨before, after, hsplit, hbefore, hv, rfl⟩ := find?_zipIdx_eq_some_iff.mp hfind
      have hdimension : ∀ c ∈ candidates, c.length = o.space.dimension := by
        simpa using List.find?_eq_none.mp hnone
      exact .value (Decidable.not_not.mp hlength) hdimension hsplit hbefore hv
  · intro h
    cases h with
    | lengths hlength => rw [if_pos hlength]
    | candidate hlength hsplit hbefore hc =>
      rw [if_neg (not_not_intro hlength),
        find?_length_eq_some_iff.mpr ⟨_, _, hsplit, hbefore, hc⟩]
    | value hlength hdimension hsplit hbefore hv =>
      have hnone : (candidates.find? fun c => c.length != o.space.dimension) = none := by
        simpa using hdimension
      rw [if_neg (not_not_intro hlength), hnone,
        find?_zipIdx_eq_some_iff.mpr ⟨_, _, hsplit, hbefore, hv, rfl⟩]
      rfl

/-- What is recorded is what the ledger takes one after the other. -/
theorem exists_ledger_recorded (o : Optimizer σ) {candidates : List Candidate} {values : List Float}
    (hlength : candidates.length = values.length) (hfinite : ∀ v ∈ values, v.isFinite = true) :
    ∃ ledger, (List.zipWith Observation.mk candidates values).foldlM Ledger.append o.ledger = .ok ledger ∧
      ledger.entries = o.ledger.entries ++ List.zipWith Observation.mk candidates values ∧
      o.recorded (candidates.zip values) =
        { o with ledger := ledger, stale := o.stale || !candidates.isEmpty } := by
  rw [← observations_zip]
  have hobservations : ∀ observation ∈ observations (candidates.zip values),
      observation.value.isFinite = true := by
    intro observation hmem
    obtain ⟨p, hp, rfl⟩ := List.mem_map.mp hmem
    exact hfinite p.2 (List.of_mem_zip hp).2
  have hempty : (candidates.zip values).isEmpty = candidates.isEmpty := by
    rw [Bool.eq_iff_iff, List.isEmpty_iff_length_eq_zero, List.isEmpty_iff_length_eq_zero,
      List.length_zip, ← hlength, Nat.min_self]
  refine ⟨_, Ledger.foldlM_append_of_finite o.ledger hobservations, Ledger.entries_extend _ _, ?_⟩
  rw [recorded, hempty]

/-- A batch is recorded exactly if it has a finite value for each candidate and each candidate has a coordinate for
each parameter. Then the ledger takes the pairs one after the other, the model is stale if there are any, and nothing
else changes. Otherwise nothing at all changes, and the error is the first fault of the batch. -/
theorem observe_whole (o : Optimizer σ) (candidates : List Candidate) (values : List Float) :
    ((o.observe candidates values).1 = .ok () ↔
      candidates.length = values.length ∧ (∀ c ∈ candidates, c.length = o.space.dimension) ∧
        ∀ v ∈ values, v.isFinite = true) ∧
    ((o.observe candidates values).1 = .ok () →
      ∃ ledger, (List.zipWith Observation.mk candidates values).foldlM Ledger.append o.ledger = .ok ledger ∧
        ledger.entries = o.ledger.entries ++ List.zipWith Observation.mk candidates values ∧
        (o.observe candidates values).2 =
          { o with ledger := ledger, stale := o.stale || !candidates.isEmpty }) ∧
    ∀ e, ((o.observe candidates values).1 = .error e ↔
        FirstFault o.space.dimension candidates values e) ∧
      ((o.observe candidates values).1 = .error e → (o.observe candidates values).2 = o) := by
  rw [← batchFault?_eq_none_iff]
  simp only [← batchFault?_eq_some_iff]
  rcases hobserve : o.observe candidates values with ⟨r, next⟩
  cases observes_of_observe hobserve with
  | @refused e hfault =>
    rw [hfault]
    refine ⟨⟨nofun, nofun⟩, nofun, fun e' => ⟨?_, fun _ => rfl⟩⟩
    rw [Except.error.injEq, Option.some.injEq]
  | recorded hlength hdimension hfinite =>
    have hnone := (batchFault?_eq_none_iff o candidates values).mpr ⟨hlength, hdimension, hfinite⟩
    rw [hnone]
    exact ⟨⟨fun _ => rfl, fun _ => rfl⟩, fun _ => o.exists_ledger_recorded hlength hfinite,
      fun e => ⟨⟨nofun, nofun⟩, nofun⟩⟩

/-! ### A batch with two faults -/

/-- Two candidates are recorded with their values. A second batch has a candidate that is too long and a value that
is not finite; it is refused for the candidate, and its first pair, which has no fault, is not recorded either. -/
theorem pointSearch_observe_whole :
    (pointSearch.observe [[0.5], [0.25]] [2.0, 1.0]).1 = .ok () ∧
    (∃ ledger, [⟨[0.5], 2.0⟩, ⟨[0.25], 1.0⟩].foldlM Ledger.append pointSearch.ledger = .ok ledger ∧
      ledger.entries = [⟨[0.5], 2.0⟩, ⟨[0.25], 1.0⟩] ∧
      (pointSearch.observe [[0.5], [0.25]] [2.0, 1.0]).2 =
        { pointSearch with ledger := ledger, stale := true }) ∧
    (pointSearch.observe [[0.5], [0.25, 0.75]] [1.0, 0.0 / 0.0]).1 = .error (.shapeMismatch 1 2) ∧
    (pointSearch.observe [[0.5], [0.25, 0.75]] [1.0, 0.0 / 0.0]).2 = pointSearch := by
  obtain ⟨hiff, hrecorded, -⟩ := observe_whole pointSearch [[0.5], [0.25]] [2.0, 1.0]
  have hok := hiff.mpr (by decide)
  obtain ⟨-, -, hrefused⟩ := observe_whole pointSearch [[0.5], [0.25, 0.75]] [1.0, 0.0 / 0.0]
  obtain ⟨hfault, hsame⟩ := hrefused (.shapeMismatch 1 2)
  have hsplit : ([[0.5], [0.25, 0.75]] : List Candidate) = [[0.5]] ++ [0.25, 0.75] :: [] := rfl
  have hfirst : FirstFault pointSearch.space.dimension [[0.5], [0.25, 0.75]] [1.0, 0.0 / 0.0]
      (.shapeMismatch 1 2) :=
    .candidate rfl hsplit (by decide) (by decide)
  have herror := hfault.mpr hfirst
  exact ⟨hok, hrecorded hok, herror, hsame herror⟩

end Optimizer

end DelayTuning
