import DelayTuning.Proofs.Decimal.Fixed
import DelayTuning.Proofs.Decimal.Nearest
import DelayTuning.Proofs.Log.Pieces

/-!
# Written numerals

A numeral is written with the digits `0` to `9`: an optional sign, digits with an optional point and further
digits or a point with digits after it, and an optional exponent. The scanner takes such a numeral as a whole
if what follows it cannot be taken for more of it. It takes digits of other scripts too, but a numeral that has
them has no value, so a scanned numeral with a value is a written one.

## Main definitions

- `Numeral.Written`: the numerals that are written with digits `0` to `9`
- `Numeral.exact`: the number of a numeral
- `Numeral.nearest`: the double that is read

## Main statements

- `Numeral.scan?_of_written`: a written numeral is scanned as a whole
- `Numeral.written_of_scan?`: what is scanned and has a value is written
- `Numeral.roundsToNearest_nearest`: the double that is read is nearest to the number of the numeral
-/

namespace DelayTuning

/-! ### Forms -/

/-- Digits `0` to `9`, at least one. -/
def AreDigits (s : List Char) : Prop :=
  s ≠ [] ∧ ∀ c ∈ s, c.isDigit = true

def IsOptionalSign (s : List Char) : Prop :=
  s = [] ∨ s = ['+'] ∨ s = ['-']

structure ExponentPart.Written (e : ExponentPart) : Prop where
  mark : e.mark = 'e' ∨ e.mark = 'E'
  sign : IsOptionalSign e.sign
  digits : AreDigits e.digits

/-- Digits with an optional point and optional further digits, or a point and digits. -/
inductive WrittenMantissa : List Char → List Char → List Char → Prop
  | whole {whole : List Char} (hwhole : AreDigits whole) : WrittenMantissa whole [] []
  | point {whole fraction : List Char} (hwhole : AreDigits whole)
    (hfraction : ∀ c ∈ fraction, c.isDigit = true) : WrittenMantissa whole ['.'] fraction
  | fraction {fraction : List Char} (hfraction : AreDigits fraction) :
    WrittenMantissa [] ['.'] fraction

/-! ### Blanks -/

theorem isBlank_eq_false {c : Char} (h : c = '-' ∨ c = '.' ∨ c.isDigit = true) :
    isBlank c = false := by
  obtain rfl | rfl | hdigit := h
  · decide
  · decide
  · obtain ⟨hlow, hhigh⟩ := (isDigit_iff c).mp hdigit
    have hlow' : 48 ≤ c.toNat := hlow
    have hhigh' : c.toNat ≤ 57 := hhigh
    simp only [isBlank, Bool.or_eq_false_iff, Bool.and_eq_false_iff, beq_eq_false_iff_ne,
      decide_eq_false_iff_not]
    omega

theorem dropWhile_isBlank {text : List Char} (h : ∀ c ∈ text.head?, isBlank c = false) :
    text.dropWhile isBlank = text ∧ text.takeWhile isBlank = [] := by
  cases text with
  | nil => exact ⟨rfl, rfl⟩
  | cons c rest => simp [h c rfl]

namespace Numeral

/-! ### Numbers -/

structure Written (n : Numeral) : Prop where
  sign : IsOptionalSign n.sign
  mantissa : WrittenMantissa n.whole n.point n.fraction
  exponent : ∀ e ∈ n.exponent, e.Written

/-- The power of ten of an exponent part. -/
def power : Option ExponentPart → ℤ
  | none => 0
  | some e =>
    let n : ℤ := Nat.ofDigitChars 10 e.digits 0
    if e.sign = ['-'] then -n else n

/-- The number of a numeral. -/
def exact (n : Numeral) : ℚ :=
  let whole : ℚ := Nat.ofDigitChars 10 n.whole 0
  let fraction : ℚ := Nat.ofDigitChars 10 n.fraction 0
  let size := (whole + fraction / 10 ^ n.fraction.length) * 10 ^ power n.exponent
  if n.sign = ['-'] then -size else size

/-- The double that is read from a written numeral. -/
def nearest (n : Numeral) : Float :=
  nearestDouble (n.sign = ['-']) (Nat.ofDigitChars 10 (n.whole ++ n.fraction) 0)
    (power n.exponent - n.fraction.length)

/-! ### Values -/

/-- Digits behind a point count as digits of a smaller power of ten. -/
theorem ofDigitChars_append_mul (whole fraction : List Char) (k : ℤ) :
    (Nat.ofDigitChars 10 (whole ++ fraction) 0 : ℚ) * 10 ^ (k - fraction.length) =
      (Nat.ofDigitChars 10 whole 0 + Nat.ofDigitChars 10 fraction 0 / 10 ^ fraction.length) * 10 ^ k := by
  rw [Nat.ofDigitChars_append, Nat.ofDigitChars_eq_ofDigitChars_zero, zpow_sub₀ (by norm_num),
    zpow_natCast]
  push_cast
  field_simp

/-- The double that is read is the one nearest to the number of the numeral. -/
theorem roundsToNearest_nearest (n : Numeral) : RoundsToNearest n.exact n.nearest := by
  have hnearest := roundsToNearest_nearestDouble (n.sign = ['-'])
    (Nat.ofDigitChars 10 (n.whole ++ n.fraction) 0) (power n.exponent - n.fraction.length)
  rw [ofDigitChars_append_mul] at hnearest
  simp only [decide_eq_true_eq] at hnearest
  exact hnearest

theorem isDigit_of_mem_mantissa {n : Numeral} (h : WrittenMantissa n.whole n.point n.fraction) :
    ∀ c ∈ n.whole ++ n.fraction, c.isDigit = true := by
  obtain ⟨sign, whole, point, fraction, exponent⟩ := n
  intro c hc
  cases h with
  | whole hwhole => exact hwhole.2 c (by simpa using hc)
  | point hwhole hfraction =>
    obtain hc | hc := List.mem_append.mp hc
    · exact hwhole.2 c hc
    · exact hfraction c hc
  | fraction hfraction => exact hfraction.2 c hc

theorem digitsValue?_of_isDigit {digits : List Char} (h : ∀ c ∈ digits, c.isDigit = true) :
    digitsValue? digits = some (Nat.ofDigitChars 10 digits 0) :=
  digitsValueFrom?_of_isDigit 0 h

theorem isDigit_of_digitsValueFrom? {value n : ℕ} {digits : List Char}
    (h : digitsValueFrom? value digits = some n) : ∀ c ∈ digits, c.isDigit = true := by
  induction digits generalizing value with
  | nil => exact fun c hc => absurd hc List.not_mem_nil
  | cons d rest ih =>
    rw [digitsValueFrom?] at h
    split at h
    · next k hk =>
      have hd : d.isDigit = true := by
        rw [digitValue?] at hk
        split at hk
        · next hrange => exact (isDigit_iff d).mpr hrange
        · cases hk
      rw [List.forall_mem_cons]
      exact ⟨hd, ih h⟩
    · cases h

/-- A written numeral has a value. -/
theorem value?_of_written {n : Numeral} (h : n.Written) : n.value? = some n.nearest := by
  have hexponent : exponentValue? n.exponent = some (power n.exponent) := by
    cases he : n.exponent with
    | none => rfl
    | some e =>
      have hdigits := (h.exponent e he).digits.2
      rw [exponentValue?, digitsValue?_of_isDigit hdigits, power]
  rw [value?, digitsValue?_of_isDigit (isDigit_of_mem_mantissa h.mantissa), hexponent, nearest]

/-! ### Scanning what is written -/

theorem scanSign_of_isOptionalSign {s : List Char} (h : IsOptionalSign s) {text : List Char}
    (htext : ∀ c ∈ text.head?, isSign c = false) : scanSign (s ++ text) = (s, text) := by
  obtain rfl | rfl | rfl := h
  · cases text with
    | nil => rfl
    | cons c rest => rw [List.nil_append, scanSign, if_neg (by rw [htext c rfl]; exact Bool.false_ne_true)]
  · rfl
  · rfl

theorem isSign_eq_false {c : Char} (h : c = '.' ∨ c.isDigit = true) : isSign c = false := by
  obtain rfl | hdigit := h
  · rfl
  · have hplus : c ≠ '+' := ne_of_isDigit hdigit (by decide)
    have hminus : c ≠ '-' := ne_of_isDigit hdigit (by decide)
    simp [isSign, hplus, hminus]

theorem head?_digits {digits : List Char} (h : AreDigits digits) (rest : List Char) :
    ∀ c ∈ (digits ++ rest).head?, c.isDigit = true := by
  obtain ⟨hne, hdigits⟩ := h
  cases digits with
  | nil => exact absurd rfl hne
  | cons d others =>
    exact forall_mem_head?_cons (P := fun c => Char.isDigit c = true) (hdigits d List.mem_cons_self) _

theorem head?_mantissa {whole point fraction : List Char} (h : WrittenMantissa whole point fraction)
    (rest : List Char) :
    ∀ c ∈ (whole ++ point ++ fraction ++ rest).head?, c = '.' ∨ c.isDigit = true := by
  intro c hc
  cases h with
  | whole hwhole =>
    rw [List.append_nil, List.append_nil] at hc
    exact Or.inr (head?_digits hwhole rest c hc)
  | point hwhole hfraction =>
    rw [List.append_assoc, List.append_assoc] at hc
    exact Or.inr (head?_digits hwhole _ c hc)
  | fraction hfraction => exact Or.inl (Option.some_inj.mp hc).symm

/-- The text of a numeral with what follows it, its parts in order. -/
theorem text_append (n : Numeral) (rest : List Char) :
    n.text ++ rest =
      n.sign ++ (n.whole ++ n.point ++ n.fraction ++ (exponentText n.exponent ++ rest)) := by
  rw [text_eq]
  simp only [List.append_assoc]

/-- A written numeral does not begin with a blank. -/
theorem isBlank_head?_text {n : Numeral} (h : n.Written) (rest : List Char) :
    ∀ c ∈ (n.text ++ rest).head?, isBlank c = false := by
  intro c hc
  rw [text_append] at hc
  obtain hsign | hsign | hsign := h.sign <;> rw [hsign] at hc
  · exact isBlank_eq_false (Or.inr (head?_mantissa h.mantissa _ c hc))
  · obtain rfl : '+' = c := Option.some_inj.mp hc
    decide
  · obtain rfl : '-' = c := Option.some_inj.mp hc
    decide

theorem scanExponent_of_written {exponent : Option ExponentPart} (h : ∀ e ∈ exponent, e.Written)
    {rest : List Char} (hrest : EndsNumeral rest) :
    scanExponent (exponentText exponent ++ rest) = (exponent, rest) := by
  cases exponent with
  | none => exact scanExponent_of_endsNumeral hrest
  | some e =>
    obtain ⟨mark, sign, digits⟩ := e
    obtain ⟨hmark, hsign, hdigits⟩ := h _ rfl
    have hafter : scanSign (sign ++ (digits ++ rest)) = (sign, digits ++ rest) :=
      scanSign_of_isOptionalSign hsign fun c hc => isSign_eq_false (Or.inr (head?_digits hdigits rest c hc))
    have hscan : scanDigits (digits ++ rest) = (digits, rest) :=
      scanDigits_append hdigits.2 fun c hc => (hrest c hc).1
    have hsome : digits.isEmpty = false := by
      rw [List.isEmpty_eq_false_iff]
      exact hdigits.1
    have hletter : (mark == 'e' || mark == 'E') = true := by
      obtain rfl | rfl := hmark <;> rfl
    simp only [exponentText, ExponentPart.text, List.cons_append, List.append_assoc, scanExponent, hletter,
      if_true, hafter, hscan, hsome, Bool.false_eq_true, if_false]

theorem scanDigitsAndPoint?_of_written {whole point fraction rest : List Char}
    (h : WrittenMantissa whole point fraction)
    (hrest : ∀ c ∈ rest.head?, isDecimalDigit c = false ∧ c ≠ '.') :
    scanDigitsAndPoint? (whole ++ point ++ fraction ++ rest) = some ((whole, point, fraction), rest) := by
  have hend : ∀ c ∈ rest.head?, isDecimalDigit c = false := fun c hc => (hrest c hc).1
  have hpointEnd : ∀ more, ∀ c ∈ ('.' :: more).head?, isDecimalDigit c = false :=
    forall_mem_head?_cons (by decide)
  have hsome : ∀ {digits : List Char}, AreDigits digits → digits.isEmpty = false := fun h =>
    List.isEmpty_eq_false_iff.mpr h.1
  cases h with
  | whole hwhole =>
    have hscan := scanDigits_append hwhole.2 hend
    simp only [List.append_nil, scanDigitsAndPoint?, hscan, hsome hwhole, Bool.false_eq_true, if_false]
    split
    · next afterPoint =>
      exact absurd rfl (hrest '.' rfl).2
    · rfl
  | point hwhole hfraction =>
    have hscan := scanDigits_append hwhole.2 (hpointEnd (fraction ++ rest))
    have hplaces := scanDigits_append hfraction hend
    simp only [List.append_assoc, List.cons_append, List.nil_append, scanDigitsAndPoint?, hscan, hplaces,
      hsome hwhole, Bool.false_and, Bool.false_eq_true, if_false]
  | fraction hfraction =>
    have hscan : scanDigits ([] ++ '.' :: (fraction ++ rest)) = ([], '.' :: (fraction ++ rest)) :=
      scanDigits_append (List.forall_mem_nil _) (hpointEnd (fraction ++ rest))
    have hplaces := scanDigits_append hfraction.2 hend
    rw [List.nil_append] at hscan
    simp only [List.nil_append, List.cons_append, scanDigitsAndPoint?, hscan, hplaces, hsome hfraction,
      Bool.and_false, Bool.false_eq_true, if_false]

/-- An exponent part begins with a letter. -/
theorem head?_exponentText {exponent : Option ExponentPart} (h : ∀ e ∈ exponent, e.Written)
    {rest : List Char} (hrest : EndsNumeral rest) (hpoint : ∀ c ∈ rest.head?, c ≠ '.') :
    ∀ c ∈ (exponentText exponent ++ rest).head?, isDecimalDigit c = false ∧ c ≠ '.' := by
  cases exponent with
  | none => exact fun c hc => ⟨(hrest c hc).1, hpoint c hc⟩
  | some e =>
    intro c hc
    obtain rfl : e.mark = c := Option.some_inj.mp hc
    obtain hmark | hmark := (h e rfl).mark <;> rw [hmark] <;> decide

/-- A written numeral is scanned as a whole if what follows cannot be taken for more of it. -/
theorem scan?_of_written {n : Numeral} (h : n.Written) {rest : List Char} (hrest : EndsNumeral rest)
    (hpoint : ∀ c ∈ rest.head?, c ≠ '.') : scan? (n.text ++ rest) = some (n, rest) := by
  obtain ⟨hsign, hmantissa, hexponent⟩ := h
  rw [text_append, scan?,
    scanSign_of_isOptionalSign hsign fun c hc => isSign_eq_false (head?_mantissa hmantissa _ c hc)]
  simp only [scanDigitsAndPoint?_of_written hmantissa (head?_exponentText hexponent hrest hpoint),
    scanExponent_of_written hexponent hrest]

/-! ### What is scanned -/

theorem isOptionalSign_scanSign (s : List Char) : IsOptionalSign (scanSign s).1 := by
  cases s with
  | nil => exact Or.inl rfl
  | cons c rest =>
    rw [scanSign]
    split
    · next hsign =>
      rw [isSign, Bool.or_eq_true, beq_iff_eq, beq_iff_eq] at hsign
      obtain rfl | rfl := hsign
      · exact Or.inr (Or.inl rfl)
      · exact Or.inr (Or.inr rfl)
    · exact Or.inl rfl

theorem scanExponent_form {s : List Char} {e : ExponentPart} (h : (scanExponent s).1 = some e) :
    (e.mark = 'e' ∨ e.mark = 'E') ∧ IsOptionalSign e.sign ∧ e.digits ≠ [] := by
  cases s with
  | nil => cases h
  | cons c rest =>
    rw [scanExponent] at h
    split at h
    · next hmark =>
      rw [Bool.or_eq_true, beq_iff_eq, beq_iff_eq] at hmark
      simp only at h
      split at h
      · cases h
      · next hdigits =>
        cases h
        exact ⟨hmark, isOptionalSign_scanSign rest, fun hempty => hdigits (List.isEmpty_iff.mpr hempty)⟩
    · cases h

/-- A scanned mantissa is a written one if its digits are. -/
theorem writtenMantissa_of_scan {s whole point fraction rest : List Char}
    (h : scanDigitsAndPoint? s = some ((whole, point, fraction), rest))
    (hdigits : ∀ c ∈ whole ++ fraction, c.isDigit = true) : WrittenMantissa whole point fraction := by
  have hwhole : ∀ c ∈ whole, c.isDigit = true := fun c hc => hdigits c (List.mem_append_left _ hc)
  have hfraction : ∀ c ∈ fraction, c.isDigit = true := fun c hc => hdigits c (List.mem_append_right _ hc)
  rw [scanDigitsAndPoint?] at h
  simp only at h
  split at h
  · split at h
    · cases h
    · next hne =>
      cases h
      rw [Bool.and_eq_true, List.isEmpty_iff, List.isEmpty_iff, not_and] at hne
      by_cases hempty : (scanDigits s).1 = []
      · rw [hempty]
        exact .fraction ⟨hne hempty, hfraction⟩
      · exact .point ⟨hempty, hwhole⟩ hfraction
  · split at h
    · cases h
    · next hne =>
      cases h
      rw [List.isEmpty_iff] at hne
      exact .whole ⟨hne, hwhole⟩

/-- What is scanned and has a value is a written numeral. -/
theorem written_of_scan? {s rest : List Char} {n : Numeral} {x : Float} (h : scan? s = some (n, rest))
    (hvalue : n.value? = some x) : n.Written := by
  have hdigits : (∀ c ∈ n.whole ++ n.fraction, c.isDigit = true) ∧
      ∀ e ∈ n.exponent, ∀ c ∈ e.digits, c.isDigit = true := by
    rw [value?] at hvalue
    split at hvalue
    · next hmantissa hexponent =>
      refine ⟨isDigit_of_digitsValueFrom? hmantissa, ?_⟩
      intro e he
      rw [Option.mem_def.mp he, exponentValue?] at hexponent
      split at hexponent
      · next hvalue => exact isDigit_of_digitsValueFrom? hvalue
      · cases hexponent
    · cases hvalue
  rw [scan?] at h
  simp only at h
  split at h
  · next whole point fraction afterDigits hscan =>
    cases h
    refine ⟨isOptionalSign_scanSign s, writtenMantissa_of_scan hscan hdigits.1, ?_⟩
    intro e he
    obtain ⟨hmark, hsign, hne⟩ := scanExponent_form he
    exact ⟨hmark, hsign, hne, hdigits.2 e he⟩
  · cases h

end Numeral

end DelayTuning
