import DelayTuning.Ledger
import DelayTuning.Proofs.Binary64.Signed
import DelayTuning.Proofs.Binary64.Stretch
import DelayTuning.Proofs.Space.Draw

/-!
# Drawn points lie within the bounds

With finite widths a uniform point always exists and lies within the bounds. A point of a Latin hypercube does
so too, except where rounding takes a place in the last stratum to its end and the lower bound plus the width
lies beyond the upper bound. With an infinite width there is no uniform point, and no point of a Latin
hypercube lies within the bounds.

## Main definitions

- `Parameter.Reachable`: a width that does not lead beyond the upper bound
- `Space.HasFiniteWidths`: no parameter has an infinite width
- `Space.Spans`: a point within bounds, up to coordinates that are the lower bound plus the width

## Main statements

- `Space.isSome_uniform_iff`, `Space.validate_of_uniform`: uniform points exist iff all widths are finite,
  and lie within the bounds
- `Space.spans_latinHypercube`, `Space.validate_latinHypercube_of_infinite`: the points of a Latin hypercube
- `Space.validate_of_spans`: such points lie within the bounds if no width leads beyond them
-/

namespace DelayTuning

namespace Parameter

variable {p : Parameter Double}

/-- The lower bound plus the width does not lie beyond the upper bound, unless the width is infinite. -/
def Reachable (p : Parameter Double) : Prop :=
  Scalar.isFinite p.width = true → p.lower + p.width ≤ p.upper

instance instDecidableReachable (p : Parameter Double) : Decidable p.Reachable :=
  inferInstanceAs (Decidable (_ → _))

/-- A number within bounds, or the lower bound plus the whole width. -/
def Spans (p : Parameter Double) (x : Double) : Prop :=
  p.contains x = true ∨ x = p.lower + p.width

theorem contains_iff {x : Double} :
    p.contains x = true ↔ p.lower.toFloat ≤ x.toFloat ∧ x.toFloat ≤ p.upper.toFloat := by
  rw [contains, Bool.and_eq_true, decide_eq_true_iff, decide_eq_true_iff]
  rfl

theorem toFloat_width (p : Parameter Double) : p.width.toFloat = p.upper.toFloat - p.lower.toFloat :=
  Double.toFloat_sub p.upper p.lower

namespace Bounded

theorem lower_isFinite (h : p.Bounded) : p.lower.toFloat.isFinite = true :=
  (Bool.and_eq_true_iff.mp h.1).1

theorem upper_isFinite (h : p.Bounded) : p.upper.toFloat.isFinite = true :=
  (Bool.and_eq_true_iff.mp h.1).2

theorem exactValue_le (h : p.Bounded) : exactValue p.lower.toFloat ≤ exactValue p.upper.toFloat := by
  have horder : ¬ p.upper.toFloat < p.lower.toFloat := h.2
  rwa [lt_iff_exactValue_lt h.upper_isFinite h.lower_isFinite, not_lt] at horder

theorem contains_lower (h : p.Bounded) : p.contains p.lower = true := by
  rw [contains_iff, le_iff_exactValue_le h.lower_isFinite h.lower_isFinite,
    le_iff_exactValue_le h.lower_isFinite h.upper_isFinite]
  exact ⟨le_rfl, h.exactValue_le⟩

/-- A number that is not finite is not within bounds. -/
theorem contains_eq_false (h : p.Bounded) {x : Double} (hx : x.toFloat.isFinite = false) :
    p.contains x = false := by
  rw [Bool.eq_false_iff, Ne, contains_iff]
  rintro ⟨hlower, hupper⟩
  have hfinite := isFinite_of_le_of_le h.lower_isFinite h.upper_isFinite hlower hupper
  rw [hx] at hfinite
  exact Bool.false_ne_true hfinite

theorem contains_lower_add_width (h : p.Bounded) (hwidth : Scalar.isFinite p.width = true)
    (hreach : p.Reachable) : p.contains (p.lower + p.width) = true := by
  have hfinite : p.width.toFloat.isFinite = true := hwidth
  have hw0 : 0 ≤ exactValue p.width.toFloat := by
    rw [p.toFloat_width] at hfinite ⊢
    exact exactValue_width_nonneg h.lower_isFinite h.upper_isFinite h.exactValue_le hfinite
  have hupper : (p.lower + p.width).toFloat ≤ p.upper.toFloat := hreach hwidth
  rw [contains_iff]
  refine ⟨?_, hupper⟩
  rw [Double.toFloat_add]
  refine (roundsTo_add h.lower_isFinite hfinite).le_of_exactValue_le h.lower_isFinite ?_
  linarith

end Bounded

end Parameter

/-! ### Random fractions -/

namespace Generator

theorem fraction52_lt (g : Generator) : g.fraction52.1 < 2 ^ 52 := by
  have h := g.next64.1.toNat_lt
  simp only [fraction52, UInt64.toNat_shiftRight, Nat.shiftRight_eq_div_pow]
  change _ / 2 ^ 12 < _
  omega

theorem fraction53_lt (g : Generator) : g.fraction53.1 < 2 ^ 53 := by
  have h := g.next64.1.toNat_lt
  simp only [fraction53, UInt64.toNat_shiftRight, Nat.shiftRight_eq_div_pow]
  change _ / 2 ^ 11 < _
  omega

end Generator

/-- A fraction whose denominator is a power of two is exact. -/
theorem exactValue_fraction {k j : ℕ} {d : Float} (hk : k < 2 ^ j) (hj : j ≤ 53)
    (hd : d.isFinite = true) (hvalue : exactValue d = 2 ^ j) :
    (Float.ofNat k / d).isFinite = true ∧ exactValue (Float.ofNat k / d) = k / 2 ^ j := by
  have hk53 : k < 2 ^ 53 := hk.trans_le (Nat.pow_le_pow_right (by decide) hj)
  obtain ⟨hfinite, hnumerator⟩ := exactValue_ofNat hk53
  obtain ⟨f, hf, hquotient⟩ := exists_exactValue_eq hk53 (e := -j) (by omega) (by omega)
  have hround := roundsTo_div hfinite hd (by rw [hvalue]; positivity)
  rw [zpow_neg, zpow_natCast, ← div_eq_mul_inv] at hquotient
  rw [hnumerator, hvalue, ← hquotient] at hround
  rw [← hquotient]
  exact hround.exactValue_eq hf

theorem exactValue_ofNat_two_pow_52 : exactValue (Float.ofNat (2 ^ 52)) = 2 ^ 52 := by
  have h := (exactValue_ofNat (n := 2 ^ 52) (by decide)).2
  rwa [Nat.cast_pow, Nat.cast_ofNat] at h

theorem exactValue_ofNat_two_pow_53 : exactValue (Float.ofNat (2 ^ 53)) = 2 ^ 53 := by
  have h : Binary64.ofFloat (Float.ofNat (2 ^ 53)) = .finite false (2 ^ 52) 1 := by decide
  rw [exactValue, h]
  norm_num [Binary64.value]

/-- The fraction of a uniform draw is below one by the last place at least. -/
theorem fraction52_bounds (g : Generator) :
    (Float.ofNat g.fraction52.1 / Float.ofNat (2 ^ 52)).isFinite = true ∧
      0 ≤ exactValue (Float.ofNat g.fraction52.1 / Float.ofNat (2 ^ 52)) ∧
        exactValue (Float.ofNat g.fraction52.1 / Float.ofNat (2 ^ 52)) ≤ 1 - 1 / 2 ^ 52 := by
  have hk : (g.fraction52.1 : ℚ) + 1 ≤ 2 ^ 52 := by exact_mod_cast g.fraction52_lt
  obtain ⟨hfinite, hvalue⟩ := exactValue_fraction g.fraction52_lt (by decide)
    (exactValue_ofNat (n := 2 ^ 52) (by decide)).1 exactValue_ofNat_two_pow_52
  rw [hvalue]
  refine ⟨hfinite, by positivity, ?_⟩
  rw [div_le_iff₀ (by positivity)]
  linarith

/-- The offset of a place in its stratum. -/
theorem fraction53_bounds (g : Generator) :
    (Float.ofNat g.fraction53.1 / Float.ofNat (2 ^ 53)).isFinite = true ∧
      0 ≤ exactValue (Float.ofNat g.fraction53.1 / Float.ofNat (2 ^ 53)) ∧
        exactValue (Float.ofNat g.fraction53.1 / Float.ofNat (2 ^ 53)) < 1 := by
  have hk : (g.fraction53.1 : ℚ) < 2 ^ 53 := by exact_mod_cast g.fraction53_lt
  obtain ⟨hfinite, hvalue⟩ := exactValue_fraction g.fraction53_lt le_rfl (by decide)
    exactValue_ofNat_two_pow_53
  rw [hvalue]
  exact ⟨hfinite, by positivity, by rwa [div_lt_one (by positivity)]⟩

theorem Generator.toFloat_unit (g : Generator) :
    (g.unit.1 : Double).toFloat = Float.ofNat g.fraction53.1 / Float.ofNat (2 ^ 53) := by
  simp only [Generator.unit, Double.toFloat_div, Double.toFloat_natCast]
  rfl

/-! ### Uniform points -/

theorem contains_between {p : Parameter Double} (hp : p.Bounded)
    (hwidth : p.width.toFloat.isFinite = true) (g : Generator) :
    p.contains (g.between p.lower p.upper).1 = true := by
  have hlo := hp.lower_isFinite
  have hhi := hp.upper_isFinite
  have hvalue : ((g.between p.lower p.upper).1).toFloat =
      Float.ofNat g.fraction52.1 / Float.ofNat (2 ^ 52) * (p.upper.toFloat - p.lower.toFloat) +
        p.lower.toFloat := by
    simp only [Generator.between, Double.toFloat_add, Double.toFloat_mul, Double.toFloat_div,
      Double.toFloat_sub, Double.toFloat_natCast]
    rfl
  rw [p.toFloat_width] at hwidth
  obtain ⟨ht, ht0, ht1⟩ := fraction52_bounds g
  have hw0 := exactValue_width_nonneg hlo hhi hp.exactValue_le hwidth
  obtain ⟨hy, hy0, -⟩ := stretch_bounds ht hwidth ht0 (ht1.trans (by norm_num)) hw0
  have hdistance := stretch_le_distance hlo hhi hp.exactValue_le hwidth ht ht0 ht1
  have hsum := roundsTo_add hy hlo
  rw [add_comm (exactValue _)] at hsum
  rw [Parameter.contains_iff, hvalue]
  exact between_of_roundsTo hlo hhi hy0 hdistance hsum

/-- A width that is zero is finite. -/
theorem isFinite_of_beq_zero {x : Double} (h : (x == 0.0) = true) : x.toFloat.isFinite = true := by
  have hzero : (x.toFloat == (0.0 : Float)) = true := h
  obtain ⟨-, -, heq | ⟨heq, -⟩ | ⟨heq, -⟩⟩ := Float.beq_iff_ne_nan_and_eq.mp hzero <;> rw [heq] <;>
    decide

theorem uniformCoordinates_within {parameters : List (Parameter Double)} {x : Candidate}
    {g : Generator} (hbounded : ∀ p ∈ parameters, p.Bounded)
    (h : (uniformCoordinates parameters g).1 = some x) :
    List.Forall₂ (fun p c => p.contains c = true) parameters x := by
  induction parameters generalizing x g with
  | nil =>
    obtain rfl : [] = x := by simpa [uniformCoordinates] using h
    exact .nil
  | cons p rest ih =>
    have hp := hbounded p List.mem_cons_self
    have hrest := fun q hq => hbounded q (List.mem_cons_of_mem p hq)
    simp only [uniformCoordinates] at h
    split at h
    · obtain ⟨tail, htail, rfl⟩ := Option.map_eq_some_iff.mp h
      exact .cons hp.contains_lower (ih hrest htail)
    · split at h
      · next hfinite =>
        obtain ⟨tail, htail, rfl⟩ := Option.map_eq_some_iff.mp h
        exact .cons (contains_between hp hfinite g) (ih hrest htail)
      · exact absurd h (by simp)

theorem isSome_uniformCoordinates (parameters : List (Parameter Double)) (g : Generator) :
    (uniformCoordinates parameters g).1.isSome = true ↔
      ∀ p ∈ parameters, Scalar.isFinite p.width = true := by
  induction parameters generalizing g with
  | nil => simp [uniformCoordinates]
  | cons p rest ih =>
    rw [List.forall_mem_cons, uniformCoordinates]
    by_cases hzero : (p.width == 0.0) = true
    · have hfinite : Scalar.isFinite p.width = true := isFinite_of_beq_zero hzero
      simp [hzero, hfinite, ih]
    · by_cases hfinite : Scalar.isFinite p.width = true
      · simp [hzero, hfinite, ih]
      · simp [hzero, hfinite]

/-! ### Latin hypercubes -/

/-- A stratum with an offset lies between zero and the number of strata. -/
theorem stratum_add_bounds {n stratum : ℕ} (hn : n < 2 ^ 53) (hstratum : stratum < n) {t : Float}
    (ht : t.isFinite = true) (ht0 : 0 ≤ exactValue t) (ht1 : exactValue t ≤ 1) :
    (Float.ofNat stratum + t).isFinite = true ∧ 0 ≤ exactValue (Float.ofNat stratum + t) ∧
      exactValue (Float.ofNat stratum + t) ≤ n := by
  obtain ⟨hleft, hleftValue⟩ := exactValue_ofNat (hstratum.trans hn)
  obtain ⟨hcount, hcountValue⟩ := exactValue_ofNat hn
  have hround := roundsTo_add hleft ht
  have hstratum' : (stratum : ℚ) + 1 ≤ n := by exact_mod_cast hstratum
  have hlow : exactValue 0.0 ≤ exactValue (Float.ofNat stratum) + exactValue t := by
    rw [exactValue_zero, hleftValue]
    positivity
  have hhigh : exactValue (Float.ofNat stratum) + exactValue t ≤ exactValue (Float.ofNat n) := by
    rw [hleftValue, hcountValue]
    linarith
  have hbounds := hround.bounds (by decide) hcount hlow hhigh
  rwa [exactValue_zero, hcountValue] at hbounds

/-- A place in a stratum is a finite number that is not negative. -/
theorem exactValue_place_nonneg {n stratum : ℕ} (hn : n < 2 ^ 53) (hstratum : stratum < n)
    (g : Generator) :
    ((((stratum : Double) + g.unit.1) / (n : Double)).toFloat).isFinite = true ∧
      0 ≤ exactValue (((stratum : Double) + g.unit.1) / (n : Double)).toFloat := by
  rw [Double.toFloat_div, Double.toFloat_add, Double.toFloat_natCast, Double.toFloat_natCast,
    g.toFloat_unit]
  obtain ⟨ht, ht0, ht1⟩ := fraction53_bounds g
  obtain ⟨hsum, hsum0, hsum1⟩ := stratum_add_bounds hn hstratum ht ht0 ht1.le
  obtain ⟨hcount, hcountValue⟩ := exactValue_ofNat hn
  have hnpos : (0 : ℚ) < n := by exact_mod_cast Nat.zero_lt_of_lt hstratum
  have hquotient := roundsTo_div hsum hcount (by rw [hcountValue]; exact hnpos.ne')
  rw [hcountValue] at hquotient
  obtain ⟨hplace, hplace0, -⟩ := hquotient.bounds (f := 0.0) (g := 1.0) (by decide)
    (by decide) (by rw [exactValue_zero]; positivity)
    (by rw [exactValue_one, div_le_one hnpos]; exact hsum1)
  exact ⟨hplace, exactValue_zero ▸ hplace0⟩

theorem minNum_one_bounds {u : Double} (hu : u.toFloat.isFinite = true)
    (hu0 : 0 ≤ exactValue u.toFloat) :
    ((Scalar.minNum u 1.0).toFloat).isFinite = true ∧
      0 ≤ exactValue (Scalar.minNum u 1.0).toFloat ∧
        exactValue (Scalar.minNum u 1.0).toFloat ≤ 1 := by
  have hone : (1.0 : Float).isFinite = true := by decide
  have hunit : ((1.0 : Double).toFloat) = 1.0 := rfl
  have hself : ((1.0 : Double) == 1.0) = true := by decide
  rw [Scalar.minNum, if_pos hself]
  split
  · next hlt =>
    have hlt' : u.toFloat < 1.0 := hlt
    rw [lt_iff_exactValue_lt hu hone, exactValue_one] at hlt'
    exact ⟨hu, hu0, hlt'.le⟩
  · rw [hunit, exactValue_one]
    exact ⟨hone, zero_le_one, le_rfl⟩

/-- A stretched place is within bounds, unless it has been stretched over the whole width. -/
theorem spans_stretched {p : Parameter Double} (hp : p.Bounded)
    (hwidth : Scalar.isFinite p.width = true) {t : Double} (ht : t.toFloat.isFinite = true)
    (ht0 : 0 ≤ exactValue t.toFloat) (ht1 : exactValue t.toFloat ≤ 1) :
    p.Spans (p.lower + t * p.width) := by
  have hlo := hp.lower_isFinite
  have hhi := hp.upper_isFinite
  have hfinite : p.width.toFloat.isFinite = true := hwidth
  rw [p.toFloat_width] at hfinite
  have hw0 := exactValue_width_nonneg hlo hhi hp.exactValue_le hfinite
  obtain ⟨hy, hy0, hyw⟩ := stretch_bounds ht hfinite ht0 ht1 hw0
  have hwithin : exactValue (t.toFloat * (p.upper.toFloat - p.lower.toFloat)) ≤
      exactValue p.upper.toFloat - exactValue p.lower.toFloat → p.Spans (p.lower + t * p.width) := by
    intro hdistance
    refine Or.inl ?_
    rw [Parameter.contains_iff, Double.toFloat_add, Double.toFloat_mul, p.toFloat_width]
    exact between_of_roundsTo hlo hhi hy0 hdistance (roundsTo_add hlo hy)
  -- no double lies between the distance and the width, so a product beyond the distance is the width
  obtain hlt | heq := lt_or_eq_of_le hyw
  · exact hwithin (exactValue_le_of_lt_width hlo hhi hy hfinite hlt)
  by_cases hzero : exactValue (p.upper.toFloat - p.lower.toFloat) = 0
  · refine hwithin ?_
    rw [heq, hzero]
    linarith [hp.exactValue_le]
  · have hproduct : (t * p.width).toFloat = p.width.toFloat := by
      rw [Double.toFloat_mul, p.toFloat_width]
      exact eq_of_exactValue_eq hy hfinite heq (by rwa [heq])
    have hwhole : t * p.width = p.width := Double.eq_of_toFloat_eq hproduct (by rwa [hproduct])
    exact Or.inr (by rw [hwhole])

theorem contains_stretched_of_infinite {p : Parameter Double} (hp : p.Bounded)
    (hwidth : Scalar.isFinite p.width = false) (t : Double) :
    p.contains (p.lower + t * p.width) = false := by
  refine hp.contains_eq_false ?_
  rw [Double.toFloat_add, Double.toFloat_mul]
  exact not_isFinite_add_right (not_isFinite_mul hwidth)

theorem spans_stratified {p : Parameter Double} (hp : p.Bounded)
    (hwidth : Scalar.isFinite p.width = true) {n : ℕ} (hn : n < 2 ^ 53) {strata : List ℕ}
    (hstrata : ∀ stratum ∈ strata, stratum < n) (g : Generator) :
    ∀ c ∈ (stratifiedCoordinates p n strata g).1, p.Spans c := by
  induction strata generalizing g with
  | nil => simp [stratifiedCoordinates]
  | cons stratum rest ih =>
    intro c hc
    rw [stratifiedCoordinates] at hc
    obtain rfl | hc := List.mem_cons.mp hc
    · obtain ⟨hu, hu0⟩ := exactValue_place_nonneg hn (hstrata stratum List.mem_cons_self) g
      obtain ⟨ht, ht0, ht1⟩ := minNum_one_bounds hu hu0
      exact spans_stretched hp hwidth ht ht0 ht1
    · exact ih (fun k hk => hstrata k (List.mem_cons_of_mem stratum hk)) _ c hc

theorem contains_stratified_of_infinite {p : Parameter Double} (hp : p.Bounded)
    (hwidth : Scalar.isFinite p.width = false) (n : ℕ) (strata : List ℕ) (g : Generator) :
    ∀ c ∈ (stratifiedCoordinates p n strata g).1, p.contains c = false := by
  induction strata generalizing g with
  | nil => simp [stratifiedCoordinates]
  | cons stratum rest ih =>
    intro c hc
    rw [stratifiedCoordinates] at hc
    obtain rfl | hc := List.mem_cons.mp hc
    · exact contains_stretched_of_infinite hp hwidth _
    · exact ih _ c hc

/-- What holds of every coordinate of every column holds of the points that are extended by them. -/
theorem forall₂_extendStratified {α : Type} [Scalar α] {R : Parameter α → α → Prop} {n : ℕ}
    {parameters done : List (Parameter α)} {strata : List ℕ} {points : List (Point α)} {g : Generator}
    (hcolumn : ∀ p ∈ parameters, ∀ order g, order.Perm strata →
      ∀ c ∈ (stratifiedCoordinates p n order g).1, R p c)
    (hpoints : ∀ x ∈ points, List.Forall₂ R done x) :
    ∀ x ∈ (extendStratified n parameters strata points g).1, List.Forall₂ R (done ++ parameters) x := by
  induction parameters generalizing done strata points g with
  | nil => simpa [extendStratified] using hpoints
  | cons p rest ih =>
    have hshuffle := Generator.shuffle_perm strata g
    rw [extendStratified, ← List.singleton_append, ← List.append_assoc]
    refine ih ?_ ?_
    · intro q hq order g' horder
      exact hcolumn q (List.mem_cons_of_mem p hq) order g' (horder.trans hshuffle)
    · intro x hx
      obtain ⟨i, hi⟩ := List.mem_iff_getElem?.mp hx
      obtain ⟨y, c, hy, hc, rfl⟩ := List.getElem?_zipWith_eq_some.mp hi
      have hlast := hcolumn p List.mem_cons_self _ _ hshuffle c (List.mem_of_getElem? hc)
      exact List.rel_append (hpoints y (List.mem_of_getElem? hy)) (.cons hlast .nil)

namespace Space

variable {s : Space Double}

/-- No parameter has an infinite width. -/
def HasFiniteWidths (s : Space Double) : Prop :=
  ∀ p ∈ s.parameters, Scalar.isFinite p.width = true

instance instDecidableHasFiniteWidths (s : Space Double) : Decidable s.HasFiniteWidths :=
  inferInstanceAs (Decidable (∀ p ∈ s.parameters, Scalar.isFinite p.width = true))

theorem validate_iff {α : Type} [Scalar α] {s : Space α} {x : Point α} :
    s.validate x = true ↔ List.Forall₂ (fun p c => p.contains c = true) s.parameters x := by
  rw [validate, Bool.and_eq_true, beq_iff_eq, List.all_eq_true, List.forall₂_iff_zip, dimension]
  constructor
  · rintro ⟨hlength, hall⟩
    refine ⟨hlength.symm, ?_⟩
    intro p c hmem
    exact hall (p, c) hmem
  · rintro ⟨hlength, hall⟩
    refine ⟨hlength.symm, ?_⟩
    rintro ⟨p, c⟩ hmem
    exact hall hmem

theorem validate_of_uniform {x : Candidate} {g : Generator} (h : (s.uniform g).1 = some x) :
    s.validate x = true :=
  validate_iff.mpr (uniformCoordinates_within s.wellFormed.bounded h)

theorem isSome_uniform_iff (s : Space Double) (g : Generator) :
    (s.uniform g).1.isSome = true ↔ s.HasFiniteWidths :=
  isSome_uniformCoordinates s.parameters g

/-- Every coordinate is within bounds, or its parameter's lower bound plus the whole width. -/
def Spans (s : Space Double) (x : Candidate) : Prop :=
  List.Forall₂ Parameter.Spans s.parameters x

theorem spans_of_validate {x : Candidate} (h : s.validate x = true) : s.Spans x :=
  (validate_iff.mp h).imp fun _ _ => Or.inl

theorem validate_of_spans (hwidths : s.HasFiniteWidths) (hreach : ∀ p ∈ s.parameters, p.Reachable)
    {x : Candidate} (h : s.Spans x) : s.validate x = true := by
  rw [validate_iff]
  refine ((List.forall₂_and_left _ _).mpr ⟨fun p hp => hp, h⟩).imp ?_
  rintro p c ⟨hp, hcontains | rfl⟩
  · exact hcontains
  · exact (s.wellFormed.bounded p hp).contains_lower_add_width (hwidths p hp) (hreach p hp)

theorem forall₂_latinHypercube {α : Type} [Scalar α] {s : Space α} {R : Parameter α → α → Prop} {n : ℕ}
    (hcolumn : ∀ p ∈ s.parameters, ∀ order g, order.Perm (List.range n) →
      ∀ c ∈ (stratifiedCoordinates p n order g).1, R p c) (g : Generator) :
    ∀ x ∈ (s.latinHypercube n g).1, List.Forall₂ R s.parameters x := by
  have hpoints : ∀ x ∈ List.replicate n ([] : Point α), List.Forall₂ R [] x := by
    intro x hx
    rw [List.eq_of_mem_replicate hx]
    exact .nil
  have hextended := forall₂_extendStratified (g := g) hcolumn hpoints
  exact hextended

theorem length_of_mem_latinHypercube {α : Type} [Scalar α] {s : Space α} (n : ℕ) (g : Generator) :
    ∀ x ∈ (s.latinHypercube n g).1, x.length = s.dimension := by
  intro x hx
  have hpoint : List.Forall₂ (fun _ _ => True) s.parameters x :=
    forall₂_latinHypercube (fun _ _ _ _ _ _ _ => trivial) g x hx
  exact hpoint.length_eq.symm

/-- With finite widths no point of a Latin hypercube leaves the bounds by more than rounding. -/
theorem spans_latinHypercube (hwidths : s.HasFiniteWidths) {n : ℕ} (hn : n < 2 ^ 53) (g : Generator) :
    ∀ x ∈ (s.latinHypercube n g).1, s.Spans x := by
  refine forall₂_latinHypercube ?_ g
  intro p hp order g' horder
  refine spans_stratified (s.wellFormed.bounded p hp) (hwidths p hp) hn ?_ g'
  intro stratum hstratum
  exact List.mem_range.mp (horder.mem_iff.mp hstratum)

/-- With an infinite width no point of a Latin hypercube lies within the bounds. -/
theorem validate_latinHypercube_of_infinite (hwidths : ¬ s.HasFiniteWidths) (n : ℕ) (g : Generator) :
    ∀ x ∈ (s.latinHypercube n g).1, s.validate x = false := by
  intro x hx
  have houtside : List.Forall₂ (fun p c => Scalar.isFinite p.width = false → p.contains c = false)
      s.parameters x := by
    refine forall₂_latinHypercube ?_ g x hx
    intro p hp order g' _ c hc hwidth
    exact contains_stratified_of_infinite (s.wellFormed.bounded p hp) hwidth n order g' c hc
  rw [Bool.eq_false_iff, Ne, validate_iff]
  intro hinside
  refine hwidths ?_
  intro p hp
  obtain ⟨⟨i, hi⟩, rfl⟩ := List.mem_iff_get.mp hp
  have hi' : i < x.length := hinside.length_eq ▸ hi
  by_contra hwidth
  have hcontains := houtside.get hi hi' (Bool.eq_false_of_not_eq_true hwidth)
  rw [hinside.get hi hi'] at hcontains
  exact Bool.false_ne_true hcontains.symm

end Space

end DelayTuning
