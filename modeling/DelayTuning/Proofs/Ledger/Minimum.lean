import DelayTuning.Proofs.Binary64.NotANumber
import DelayTuning.Proofs.Optimizer.Step

/-!
# The minimum of a ledger

A ledger keeps the position of its best observation and moves it on a strict improvement only; the convergence
is found by a scan of its own. All values on a ledger are finite, so they are ordered like the numbers they
stand for, and both ways find the minimum: the position is the first one of a minimal value, and the convergence
is the minimum of each beginning of the values. Of two zeros with different signs the scan may show the other
one, so the two agree as numbers and not bit by bit.

## Main definitions

- `NotAbove`, `IsMinimum`: a position of a minimal value, and a number equal to the least value
- `Ledger.offer`, `Ledger.offerAll`: requests to append, which may be refused
- `Ledger.Ranked`: what every request keeps
- `Ledger.Summarized`: what the best observation and the convergence say about the values

## Main statements

- `Ledger.Ranked.append`, `Ledger.ranked_offerAll`: the invariant holds whatever is offered
- `Ledger.isMinimum_convergence`: the convergence consists of minima
- `Ledger.Ranked.summarized`: the best observation and the convergence of such a ledger
-/

namespace DelayTuning

/-- The value at a position is not strictly above any value of the list. -/
def NotAbove (values : List Float) (i : ℕ) : Prop :=
  ∃ v, values[i]? = some v ∧ ∀ w ∈ values, ¬ w < v

/-- A number equals the least value of a list. -/
def IsMinimum (values : List Float) (m : Float) : Prop :=
  (∃ v ∈ values, (m == v) = true) ∧ ∀ v ∈ values, m ≤ v

/-! ### Finite doubles as numbers -/

def AllFiniteValues (values : List Float) : Prop :=
  ∀ v ∈ values, v.isFinite = true

theorem AllFiniteValues.take {values : List Float} (h : AllFiniteValues values) (k : ℕ) :
    AllFiniteValues (values.take k) :=
  fun v hv => h v (List.mem_of_mem_take hv)

section Order

variable {values : List Float} {x y z : Float}

theorem isFinite_of_beq (h : (x == y) = true) (hy : y.isFinite = true) : x.isFinite = true := by
  obtain ⟨-, -, rfl | ⟨rfl, -⟩ | ⟨rfl, -⟩⟩ := Float.beq_iff_ne_nan_and_eq.mp h
  · exact hy
  · decide
  · decide

theorem not_lt_iff_exactValue_le (hx : x.isFinite = true) (hy : y.isFinite = true) :
    ¬ x < y ↔ exactValue y ≤ exactValue x := by
  rw [lt_iff_exactValue_lt hx hy, not_lt]

theorem IsMinimum.isFinite (hvalues : AllFiniteValues values) (h : IsMinimum values x) :
    x.isFinite = true := by
  obtain ⟨v, hv, heq⟩ := h.1
  exact isFinite_of_beq heq (hvalues v hv)

/-- A minimum is one of the values and a lower bound of them, as a number. -/
theorem IsMinimum.exact (hvalues : AllFiniteValues values) (h : IsMinimum values x) :
    (∃ v ∈ values, exactValue x = exactValue v) ∧ ∀ v ∈ values, exactValue x ≤ exactValue v := by
  have hx := h.isFinite hvalues
  obtain ⟨⟨v, hv, heq⟩, hle⟩ := h
  refine ⟨⟨v, hv, (beq_iff_exactValue_eq hx (hvalues v hv)).mp heq⟩, ?_⟩
  intro w hw
  exact (le_iff_exactValue_le hx (hvalues w hw)).mp (hle w hw)

theorem isMinimum_singleton (hx : x.isFinite = true) : IsMinimum [x] x := by
  refine ⟨⟨x, List.mem_singleton_self x, (beq_iff_exactValue_eq hx hx).mpr rfl⟩, ?_⟩
  intro v hv
  rw [List.mem_singleton.mp hv]
  exact (le_iff_exactValue_le hx hx).mpr le_rfl

theorem minNum_cases (hy : y.isFinite = true) :
    (x < y ∧ Scalar.minNum x y = x) ∨ (¬ x < y ∧ Scalar.minNum x y = y) := by
  have hself : (y == y) = true := (beq_iff_exactValue_eq hy hy).mpr rfl
  rw [Scalar.minNum, if_pos hself]
  by_cases h : x < y
  · exact Or.inl ⟨h, if_pos h⟩
  · exact Or.inr ⟨h, if_neg h⟩

theorem isFinite_minNum (hx : x.isFinite = true) (hy : y.isFinite = true) :
    (Scalar.minNum x y).isFinite = true := by
  obtain ⟨-, h⟩ | ⟨-, h⟩ := minNum_cases (x := x) hy
  · rwa [h]
  · rwa [h]

theorem exactValue_minNum_le (hx : x.isFinite = true) (hy : y.isFinite = true) :
    exactValue (Scalar.minNum x y) ≤ exactValue x ∧ exactValue (Scalar.minNum x y) ≤ exactValue y := by
  obtain ⟨hlt, h⟩ | ⟨hle, h⟩ := minNum_cases (x := x) hy
  · rw [h]
    exact ⟨le_rfl, ((lt_iff_exactValue_lt hx hy).mp hlt).le⟩
  · rw [h]
    exact ⟨(not_lt_iff_exactValue_le hx hy).mp hle, le_rfl⟩

/-- The minimum of two values and of others is the minimum of all of them. -/
theorem IsMinimum.of_minNum (hx : x.isFinite = true) (hy : y.isFinite = true)
    (hvalues : AllFiniteValues values) (h : IsMinimum (Scalar.minNum x y :: values) z) :
    IsMinimum (x :: y :: values) z := by
  have hmin := isFinite_minNum hx hy
  have hz : z.isFinite = true := h.isFinite (List.forall_mem_cons.mpr ⟨hmin, hvalues⟩)
  obtain ⟨hbelowX, hbelowY⟩ := exactValue_minNum_le hx hy
  obtain ⟨hle, hrest⟩ := List.forall_mem_cons.mp h.2
  rw [le_iff_exactValue_le hz hmin] at hle
  constructor
  · obtain ⟨v, hv, heq⟩ := h.1
    obtain rfl | hv := List.mem_cons.mp hv
    · obtain ⟨-, hchoice⟩ | ⟨-, hchoice⟩ := minNum_cases (x := x) hy
      · exact ⟨x, by simp, hchoice ▸ heq⟩
      · exact ⟨y, by simp, hchoice ▸ heq⟩
    · exact ⟨v, by simp [hv], heq⟩
  · refine List.forall_mem_cons.mpr ⟨?_, List.forall_mem_cons.mpr ⟨?_, hrest⟩⟩
    · exact (le_iff_exactValue_le hz hx).mpr (hle.trans hbelowX)
    · exact (le_iff_exactValue_le hz hy).mpr (hle.trans hbelowY)

end Order

/-! ### Positions of minimal values -/

section Positions

variable {values : List Float} {i : ℕ} {v : Float}

theorem NotAbove.exact (hvalues : AllFiniteValues values) (h : NotAbove values i) :
    ∃ v ∈ values, values[i]? = some v ∧ ∀ w ∈ values, exactValue v ≤ exactValue w := by
  obtain ⟨v, hv, hleast⟩ := h
  have hmem := List.mem_of_getElem? hv
  refine ⟨v, hmem, hv, ?_⟩
  intro w hw
  exact (not_lt_iff_exactValue_le (hvalues w hw) (hvalues v hmem)).mp (hleast w hw)

/-- A value below all others has the first position of a minimum when it comes last. -/
theorem isLeast_notAbove_append_of_lt (hvalues : AllFiniteValues values) (hv : v.isFinite = true)
    (hlt : ∀ w ∈ values, v < w) : IsLeast {j | NotAbove (values ++ [v]) j} values.length := by
  constructor
  · refine ⟨v, by simp, ?_⟩
    intro w hw
    rw [List.mem_append, List.mem_singleton] at hw
    obtain hw | rfl := hw
    · rw [not_lt_iff_exactValue_le (hvalues w hw) hv]
      exact ((lt_iff_exactValue_lt hv (hvalues w hw)).mp (hlt w hw)).le
    · exact (not_lt_iff_exactValue_le hv hv).mpr le_rfl
  · rintro j ⟨u, hu, hleast⟩
    by_contra hj
    rw [List.getElem?_append_left (not_le.mp hj)] at hu
    exact hleast v (by simp) (hlt u (List.mem_of_getElem? hu))

/-- A last value that is not below a minimal one leaves the first position where it was. -/
theorem isLeast_notAbove_append_of_not_lt {best : Float}
    (hleast : IsLeast {j | NotAbove values j} i) (hbest : values[i]? = some best) (h : ¬ v < best) :
    IsLeast {j | NotAbove (values ++ [v]) j} i := by
  obtain ⟨hi, -⟩ := List.getElem?_eq_some_iff.mp hbest
  constructor
  · obtain ⟨u, hu, hle⟩ := hleast.1
    obtain rfl : best = u := Option.some_inj.mp (hbest.symm.trans hu)
    refine ⟨best, by rw [List.getElem?_append_left hi, hbest], ?_⟩
    intro w hw
    rw [List.mem_append, List.mem_singleton] at hw
    obtain hw | rfl := hw
    · exact hle w hw
    · exact h
  · rintro j ⟨u, hu, hle⟩
    by_contra hj
    have hj : j < i := not_le.mp hj
    rw [List.getElem?_append_left (hj.trans hi)] at hu
    exact hj.not_ge (hleast.2 ⟨u, hu, fun w hw => hle w (List.mem_append_left _ hw)⟩)

end Positions

namespace Ledger

/-- The values on a ledger, in order. -/
def values (l : Ledger) : List Float :=
  l.entries.map Observation.value

theorem length_values (l : Ledger) : l.values.length = l.count :=
  List.length_map _

theorem getElem?_values {l : Ledger} {i : ℕ} {observation : Observation} (h : l.entries[i]? = some observation) :
    l.values[i]? = some observation.value := by
  rw [values, List.getElem?_map, h, Option.map_some]

theorem exists_of_getElem?_values {l : Ledger} {i : ℕ} {v : Float} (h : l.values[i]? = some v) :
    ∃ observation, l.entries[i]? = some observation ∧ observation.value = v := by
  rwa [values, List.getElem?_map, Option.map_eq_some_iff] at h

/-! ### What is offered -/

/-- The ledger after a request to append; a refused one leaves it as it was. -/
def offer (l : Ledger) (observation : Observation) : Ledger :=
  match l.append observation with
  | .ok next => next
  | .error _ => l

def offerAll (l : Ledger) (offered : List Observation) : Ledger :=
  offered.foldl offer l

/-- The observations that are not refused. -/
def accepted (offered : List Observation) : List Observation :=
  offered.filter fun observation => observation.value.isFinite

theorem append_of_not_isFinite (l : Ledger) {observation : Observation}
    (h : observation.value.isFinite = false) :
    l.append observation = .error (.nonFiniteValue l.count observation.value) := by
  simp [append, h]

theorem offer_of_isFinite (l : Ledger) {observation : Observation}
    (h : observation.value.isFinite = true) : l.offer observation = l.extend [observation] := by
  rw [offer, append_of_isFinite l h]
  rfl

theorem offer_of_not_isFinite (l : Ledger) {observation : Observation}
    (h : observation.value.isFinite = false) : l.offer observation = l := by
  rw [offer, append_of_not_isFinite l h]

/-- What is offered is recorded as far as it is finite. -/
theorem offerAll_eq_extend (l : Ledger) (offered : List Observation) :
    l.offerAll offered = l.extend (accepted offered) := by
  induction offered generalizing l with
  | nil => rfl
  | cons observation rest ih =>
    rw [offerAll, List.foldl_cons, ← offerAll, ih, accepted, accepted, List.filter_cons]
    cases h : observation.value.isFinite with
    | true =>
      rw [l.offer_of_isFinite h]
      rfl
    | false =>
      rw [l.offer_of_not_isFinite h]
      rfl

/-- All values are finite, and the best index is the first position of a minimal one. -/
structure Ranked (l : Ledger) : Prop where
  finite : AllFiniteValues l.values
  best : (l.entries = [] ∧ l.bestIndex = none) ∨
    ∃ i, l.bestIndex = some i ∧ IsLeast {j | NotAbove l.values j} i

theorem ranked_empty : Ranked empty :=
  ⟨by simp [AllFiniteValues, values, empty], Or.inl ⟨rfl, rfl⟩⟩

namespace Ranked

variable {l : Ledger}

/-- Moving the best index on a strict improvement keeps it at the first minimum. -/
theorem append (h : Ranked l) {observation : Observation} (hfinite : observation.value.isFinite = true) :
    Ranked ⟨l.entries ++ [observation],
      if l.improves observation.value then some l.count else l.bestIndex⟩ := by
  have hvalues : values ⟨l.entries ++ [observation],
      if l.improves observation.value then some l.count else l.bestIndex⟩ =
        l.values ++ [observation.value] := by
    simp [values]
  refine ⟨?_, Or.inr ?_⟩
  · rw [hvalues]
    simpa [AllFiniteValues, or_imp, forall_and, hfinite] using h.finite
  rw [hvalues, ← l.length_values]
  obtain ⟨hentries, hnone⟩ | ⟨i, hi, hleast⟩ := h.best
  · have himproves : l.improves observation.value = true := by
      rw [improves, best?, hnone]
      rfl
    refine ⟨l.values.length, if_pos himproves, isLeast_notAbove_append_of_lt h.finite hfinite ?_⟩
    simp [values, hentries]
  · obtain ⟨best, hmem, hbest, hbelow⟩ := hleast.1.exact h.finite
    obtain ⟨entry, hentry, rfl⟩ := exists_of_getElem?_values hbest
    have himproves : l.improves observation.value = true ↔ observation.value < entry.value := by
      rw [improves, best?, hi, Option.bind_some, hentry]
      exact decide_eq_true_iff
    by_cases hlt : observation.value < entry.value
    · refine ⟨l.values.length, if_pos (himproves.mpr hlt),
        isLeast_notAbove_append_of_lt h.finite hfinite ?_⟩
      intro w hw
      rw [lt_iff_exactValue_lt hfinite (h.finite _ hmem)] at hlt
      exact (lt_iff_exactValue_lt hfinite (h.finite w hw)).mpr (hlt.trans_le (hbelow w hw))
    · refine ⟨i, (if_neg fun himp => hlt (himproves.mp himp)).trans hi, ?_⟩
      exact isLeast_notAbove_append_of_not_lt hleast hbest hlt

theorem extend (h : Ranked l) {observations : List Observation}
    (hfinite : ∀ observation ∈ observations, observation.value.isFinite = true) :
    Ranked (l.extend observations) := by
  induction observations generalizing l with
  | nil => exact h
  | cons observation rest ih =>
    obtain ⟨hfirst, hrest⟩ := List.forall_mem_cons.mp hfinite
    exact ih (h.append hfirst) hrest

end Ranked

theorem ranked_offerAll (offered : List Observation) : Ranked (empty.offerAll offered) := by
  rw [offerAll_eq_extend]
  apply ranked_empty.extend
  intro observation hmem
  exact (List.mem_filter.mp hmem).2

/-! ### Convergence -/

theorem isMinimum_runningMinimum {lowest : Float} {values : List Float}
    (hlowest : lowest.isFinite = true) (hvalues : AllFiniteValues values) {i : ℕ} {m : Float}
    (h : (runningMinimum lowest values)[i]? = some m) :
    IsMinimum (lowest :: values.take (i + 1)) m := by
  induction values generalizing lowest i with
  | nil => cases h
  | cons v rest ih =>
    obtain ⟨hv, hrest⟩ := List.forall_mem_cons.mp hvalues
    have hmin := isFinite_minNum hlowest hv
    rw [List.take_succ_cons]
    apply IsMinimum.of_minNum hlowest hv (AllFiniteValues.take hrest i)
    cases i with
    | zero =>
      obtain rfl : Scalar.minNum lowest v = m := Option.some_inj.mp h
      exact isMinimum_singleton hmin
    | succ i => exact ih hmin hrest h

/-- The scan starts at infinity, so the first value replaces it. -/
theorem runningMinimum_infinity {v : Float} (hv : v.isFinite = true) (rest : List Float) :
    runningMinimum infinity (v :: rest) = v :: runningMinimum v rest := by
  have hinfinity : ¬ infinity < v := by
    rw [float_lt_iff]
    intro hlt
    obtain ⟨s, hu⟩ | ⟨s, m, e, hpos, hu⟩ := unpack_cases_of_isFinite hv <;>
      rw [hu] at hlt <;> cases hlt
  have hmin : Scalar.minNum infinity v = v := by
    obtain ⟨hlt, -⟩ | ⟨-, h⟩ := minNum_cases (x := infinity) hv
    · exact absurd hlt hinfinity
    · exact h
  rw [runningMinimum]
  simp only [hmin]

/-- The convergence shows the minimum of each beginning of the values. -/
theorem isMinimum_convergence {l : Ledger} (h : AllFiniteValues l.values) {i : ℕ} {m : Float}
    (hm : l.convergence[i]? = some m) : IsMinimum (l.values.take (i + 1)) m := by
  rw [convergence, ← values] at hm
  cases hvalues : l.values with
  | nil =>
    rw [hvalues] at hm
    cases hm
  | cons v rest =>
    rw [hvalues] at h hm
    obtain ⟨hv, hrest⟩ := List.forall_mem_cons.mp h
    rw [runningMinimum_infinity hv] at hm
    cases i with
    | zero =>
      obtain rfl : v = m := Option.some_inj.mp hm
      exact isMinimum_singleton hv
    | succ i => exact isMinimum_runningMinimum hv hrest hm

theorem isMinimum_last_convergence {l : Ledger} (h : AllFiniteValues l.values) {m : Float}
    (hm : l.convergence.getLast? = some m) : IsMinimum l.values m := by
  rw [List.getLast?_eq_getElem?] at hm
  have hpos : 0 < l.convergence.length := by
    obtain ⟨hlt, -⟩ := List.getElem?_eq_some_iff.mp hm
    omega
  have hminimum := isMinimum_convergence h hm
  rwa [Nat.sub_add_cancel hpos, length_convergence, ← length_values, List.take_length] at hminimum

/-- A longer beginning has no larger minimum. -/
theorem pairwise_convergence {l : Ledger} (h : AllFiniteValues l.values) :
    l.convergence.Pairwise fun earlier later => later ≤ earlier := by
  rw [List.pairwise_iff_getElem]
  intro i j hi hj hij
  have hearlier := isMinimum_convergence h (List.getElem?_eq_getElem hi)
  have hlater := isMinimum_convergence h (List.getElem?_eq_getElem hj)
  obtain ⟨v, hv, heq⟩ := (hearlier.exact (h.take _)).1
  have hmem : v ∈ l.values.take (j + 1) :=
    (List.take_subset_take_left l.values (by omega : i + 1 ≤ j + 1)) hv
  have hle := (hlater.exact (h.take _)).2 v hmem
  rw [le_iff_exactValue_le (hlater.isFinite (h.take _)) (hearlier.isFinite (h.take _)), heq]
  exact hle

/-! ### What a ledger says about its values -/

/-- The best observation is the earliest minimal one, and the convergence is the running minimum of the values,
which reaches the minimum of all of them at the position of the best observation. -/
structure Summarized (l : Ledger) : Prop where
  bestIndex_eq_none_iff : l.bestIndex = none ↔ l.entries = []
  bestIndex_eq_some_iff : ∀ i, l.bestIndex = some i ↔ IsLeast {j | NotAbove l.values j} i
  best_eq_error_iff : l.best = .error .noObservations ↔ l.entries = []
  best_eq_ok_iff : ∀ observation, l.best = .ok observation ↔
    ∃ i, IsLeast {j | NotAbove l.values j} i ∧ l.entries[i]? = some observation
  length_convergence : l.convergence.length = l.count
  minimum : ∀ i m, l.convergence[i]? = some m → IsMinimum (l.values.take (i + 1)) m
  never_increases : l.convergence.Pairwise fun earlier later => later ≤ earlier
  ends_at_best : ∀ observation, l.best = .ok observation →
    ∃ m, l.convergence.getLast? = some m ∧ (m == observation.value) = true
  reaches_end : ∀ i m, l.bestIndex = some i → l.convergence.getLast? = some m →
    IsLeast {j | ∃ c, l.convergence[j]? = some c ∧ (c == m) = true} i

theorem best_eq_ok_iff_best? (l : Ledger) (observation : Observation) :
    l.best = .ok observation ↔ l.best? = some observation := by
  rw [best]
  cases l.best? with
  | none => simp
  | some best => simp

/-- The minimum of all values is reached where the first minimal value stands. -/
theorem isLeast_convergence_eq_last {l : Ledger} (h : AllFiniteValues l.values) {i : ℕ} {m : Float}
    (hi : IsLeast {j | NotAbove l.values j} i) (hm : l.convergence.getLast? = some m) :
    IsLeast {j | ∃ c, l.convergence[j]? = some c ∧ (c == m) = true} i := by
  have hlast := isMinimum_last_convergence h hm
  have hmFinite := hlast.isFinite h
  obtain ⟨hreached, hbelow⟩ := hlast.exact h
  constructor
  · obtain ⟨v, hmem, hv, hleast⟩ := hi.1.exact h
    obtain ⟨hlt, -⟩ := List.getElem?_eq_some_iff.mp hv
    have hlength : i < l.convergence.length := by
      rwa [Ledger.length_convergence, ← length_values]
    refine ⟨l.convergence[i], List.getElem?_eq_getElem hlength, ?_⟩
    have hminimum := isMinimum_convergence h (List.getElem?_eq_getElem hlength)
    rw [beq_iff_exactValue_eq (hminimum.isFinite (h.take _)) hmFinite]
    obtain ⟨⟨w, hw, hequal⟩, hle⟩ := hminimum.exact (h.take _)
    have hvTake : v ∈ l.values.take (i + 1) := by
      rw [List.mem_take_iff_getElem]
      exact ⟨i, by omega, (List.getElem?_eq_some_iff.mp hv).2⟩
    obtain ⟨u, hu, hsame⟩ := hreached
    apply le_antisymm
    · calc exactValue l.convergence[i] ≤ exactValue v := hle v hvTake
        _ ≤ exactValue u := hleast u hu
        _ = exactValue m := hsame.symm
    · rw [hequal]
      exact hbelow w (List.mem_of_mem_take hw)
  · rintro j ⟨c, hc, hcm⟩
    have hminimum := isMinimum_convergence h hc
    rw [beq_iff_exactValue_eq (hminimum.isFinite (h.take _)) hmFinite] at hcm
    obtain ⟨⟨w, hw, hequal⟩, -⟩ := hminimum.exact (h.take _)
    obtain ⟨k, hk, hwk⟩ := List.mem_take_iff_getElem.mp hw
    -- the value shown at `j` stands at a position up to `j` and is minimal
    have hnotAbove : NotAbove l.values k := by
      refine ⟨w, List.getElem?_eq_some_iff.mpr ⟨by omega, hwk⟩, ?_⟩
      intro u hu
      rw [not_lt_iff_exactValue_le (h u hu) (h w (List.mem_of_mem_take hw)), ← hequal, hcm]
      exact hbelow u hu
    exact (hi.2 hnotAbove).trans (by omega)

namespace Ranked

variable {l : Ledger}

theorem bestIndex_eq_some_iff (h : Ranked l) (i : ℕ) :
    l.bestIndex = some i ↔ IsLeast {j | NotAbove l.values j} i := by
  obtain ⟨hentries, hnone⟩ | ⟨k, hk, hleast⟩ := h.best
  · have hvalues : l.values = [] := by rw [values, hentries, List.map_nil]
    rw [hnone, hvalues]
    simp [IsLeast, NotAbove]
  · rw [hk, Option.some_inj]
    exact ⟨fun heq => heq ▸ hleast, fun hi => hleast.unique hi⟩

theorem bestIndex_eq_none_iff (h : Ranked l) : l.bestIndex = none ↔ l.entries = [] := by
  obtain ⟨hentries, hnone⟩ | ⟨k, hk, hleast⟩ := h.best
  · simp [hentries, hnone]
  · obtain ⟨v, hv, -⟩ := hleast.1
    have hne : l.entries ≠ [] := by
      rintro hentries
      rw [values, hentries] at hv
      cases hv
    simp [hk, hne]

theorem exists_best (h : Ranked l) (hne : l.entries ≠ []) :
    ∃ i observation, l.bestIndex = some i ∧ l.entries[i]? = some observation := by
  obtain ⟨hentries, -⟩ | ⟨i, hi, hleast⟩ := h.best
  · exact absurd hentries hne
  · obtain ⟨v, hv, -⟩ := hleast.1
    obtain ⟨observation, hobservation, -⟩ := exists_of_getElem?_values hv
    exact ⟨i, observation, hi, hobservation⟩

theorem best_eq_ok_iff (h : Ranked l) (observation : Observation) :
    l.best = .ok observation ↔
      ∃ i, IsLeast {j | NotAbove l.values j} i ∧ l.entries[i]? = some observation := by
  rw [best_eq_ok_iff_best?, best?, Option.bind_eq_some_iff]
  exact exists_congr fun i => and_congr_left fun _ => h.bestIndex_eq_some_iff i

theorem best_eq_error_iff (h : Ranked l) : l.best = .error .noObservations ↔ l.entries = [] := by
  rw [← h.bestIndex_eq_none_iff, Ledger.best, best?]
  constructor
  · intro herror
    by_contra hne
    obtain ⟨i, observation, hi, hobservation⟩ := h.exists_best (mt h.bestIndex_eq_none_iff.mpr hne)
    rw [hi, Option.bind_some, hobservation] at herror
    cases herror
  · intro hnone
    rw [hnone]
    rfl

/-- The scan ends at the value of the best observation. -/
theorem exists_last_convergence (h : Ranked l) {observation : Observation}
    (hbest : l.best = .ok observation) :
    ∃ m, l.convergence.getLast? = some m ∧ (m == observation.value) = true := by
  obtain ⟨i, hi, hobservation⟩ := (h.best_eq_ok_iff observation).mp hbest
  have hvalue := getElem?_values hobservation
  obtain ⟨hlt, -⟩ := List.getElem?_eq_some_iff.mp hvalue
  have hne : l.convergence ≠ [] := by
    rw [← List.length_pos_iff, Ledger.length_convergence, ← length_values]
    omega
  refine ⟨l.convergence.getLast hne, List.getLast?_eq_some_getLast hne, ?_⟩
  have hlast := isMinimum_last_convergence h.finite (List.getLast?_eq_some_getLast hne)
  obtain ⟨v, hmem, hv, hleast⟩ := hi.1.exact h.finite
  obtain rfl : observation.value = v := Option.some_inj.mp (hvalue.symm.trans hv)
  obtain ⟨⟨u, hu, hequal⟩, hbelow⟩ := hlast.exact h.finite
  rw [beq_iff_exactValue_eq (hlast.isFinite h.finite) (h.finite _ hmem)]
  exact le_antisymm (hbelow _ hmem) (hequal ▸ hleast u hu)

theorem summarized (h : Ranked l) : Summarized l where
  bestIndex_eq_none_iff := h.bestIndex_eq_none_iff
  bestIndex_eq_some_iff := h.bestIndex_eq_some_iff
  best_eq_error_iff := h.best_eq_error_iff
  best_eq_ok_iff := h.best_eq_ok_iff
  length_convergence := Ledger.length_convergence l
  minimum _ _ := isMinimum_convergence h.finite
  never_increases := pairwise_convergence h.finite
  ends_at_best _ := h.exists_last_convergence
  reaches_end i _ hi := isLeast_convergence_eq_last h.finite ((h.bestIndex_eq_some_iff i).mp hi)

end Ranked

end Ledger

end DelayTuning
