import DelayTuning.Decimal.Fixed
import DelayTuning.Decimal.Read
import DelayTuning.Proofs.Binary64.Value

/-!
# Texts with fixed places

The text of a finite double with fixed places is a numeral: a sign, at least one digit, the point and the
places. Its digits are those of the exact number, rounded once. Whatever follows the text, the scanner takes
exactly this numeral if what follows is not a digit and does not begin an exponent. The number that is read is
the double nearest to the decimal that was written.

## Main definitions

- `numeralValue?`: the double that a text denotes
- `EndsNumeral`: what may follow a numeral
- `IsNearestEven`: an integer nearest to a rational number
- `ShowsFixed`: what a text with fixed places shows

## Main statements

- `digitsValue?_digitChars`: the digits of a natural number read back
- `mem_fixedChars`: the characters of a double with fixed places
- `exists_scan?_fixedChars`: the text of a double with fixed places is scanned as one numeral
- `isNearestEven_scaledToPlaces`: the digits are those of the nearest integer
- `showsFixed_fixedText`: the text of a double shows it
-/

namespace DelayTuning

/-! ### Digits -/

theorem isDigit_iff (c : Char) :
    c.isDigit = true ↔ '0'.toNat ≤ c.toNat ∧ c.toNat ≤ '9'.toNat := by
  rw [Char.isDigit, Bool.and_eq_true, decide_eq_true_iff, decide_eq_true_iff]
  rfl

theorem isDecimalDigit_of_isDigit {c : Char} (h : c.isDigit = true) : isDecimalDigit c = true := by
  obtain ⟨hlow, hhigh⟩ := (isDigit_iff c).mp h
  refine List.any_eq_true.mpr ⟨'0'.toNat, by decide, ?_⟩
  rw [Bool.and_eq_true, decide_eq_true_iff, decide_eq_true_iff]
  exact ⟨hlow, Nat.lt_succ_of_le hhigh⟩

/-- A digit is none of the other characters that a line is made of. -/
theorem ne_of_isDigit {c d : Char} (hc : c.isDigit = true) (hd : d.isDigit = false) : c ≠ d := by
  rintro rfl
  rw [hc] at hd
  cases hd

theorem digitsValueFrom?_of_isDigit (value : ℕ) {digits : List Char}
    (h : ∀ c ∈ digits, c.isDigit = true) :
    digitsValueFrom? value digits = some (Nat.ofDigitChars 10 digits value) := by
  induction digits generalizing value with
  | nil => rfl
  | cons c rest ih =>
    have hc := (isDigit_iff c).mp (h c List.mem_cons_self)
    have hrest := fun d hd => h d (List.mem_cons_of_mem c hd)
    rw [digitsValueFrom?, digitValue?, if_pos hc]
    exact ih _ hrest

theorem isDigit_of_mem_digitChars {n : ℕ} {c : Char} (h : c ∈ Decimal.digitChars n) :
    c.isDigit = true :=
  Nat.isDigit_of_mem_toDigits (by decide) (by decide) h

@[simp]
theorem digitsValue?_digitChars (n : ℕ) : digitsValue? (Decimal.digitChars n) = some n := by
  rw [digitsValue?, digitsValueFrom?_of_isDigit 0 fun _ => isDigit_of_mem_digitChars,
    Decimal.digitChars, Nat.ofDigitChars_ten_toDigits]

theorem digitsValue?_replicate_zero_append (k : ℕ) (digits : List Char) :
    digitsValue? (List.replicate k '0' ++ digits) = digitsValue? digits := by
  induction k with
  | zero => rfl
  | succ k ih => exact ih

/-! ### Scanning -/

theorem forall_mem_head?_cons {β : Type} {P : β → Prop} {a : β} (h : P a) (rest : List β) :
    ∀ c ∈ (a :: rest).head?, P c := by
  intro c hc
  obtain rfl : a = c := by simpa using hc
  exact h

/-- What may follow a numeral that has digits after its point. -/
def EndsNumeral (rest : List Char) : Prop :=
  ∀ c ∈ rest.head?, isDecimalDigit c = false ∧ c ≠ 'e' ∧ c ≠ 'E'

theorem endsNumeral_nil : EndsNumeral [] := by
  simp [EndsNumeral]

namespace Numeral

theorem scanDigits_append {digits rest : List Char} (hdigits : ∀ c ∈ digits, c.isDigit = true)
    (hrest : ∀ c ∈ rest.head?, isDecimalDigit c = false) :
    scanDigits (digits ++ rest) = (digits, rest) := by
  have hdecimal : ∀ c ∈ digits, isDecimalDigit c = true := fun c hc =>
    isDecimalDigit_of_isDigit (hdigits c hc)
  have htake : rest.takeWhile isDecimalDigit = [] := by
    cases rest with
    | nil => rfl
    | cons c rest => simp [hrest c rfl]
  have hdrop : rest.dropWhile isDecimalDigit = rest := by
    cases rest with
    | nil => rfl
    | cons c rest => simp [hrest c rfl]
  rw [scanDigits, List.takeWhile_append_of_pos hdecimal, List.dropWhile_append_of_pos hdecimal, htake,
    hdrop, List.append_nil]

theorem scanExponent_of_endsNumeral {rest : List Char} (h : EndsNumeral rest) :
    scanExponent rest = (none, rest) := by
  cases rest with
  | nil => rfl
  | cons c rest =>
    obtain ⟨-, hsmall, hlarge⟩ := h c rfl
    simp [scanExponent, hsmall, hlarge]

theorem scanSign_signed (negative : Bool) {text : List Char}
    (h : ∀ c ∈ text.head?, c.isDigit = true) :
    scanSign (signed negative text) = (if negative then ['-'] else [], text) := by
  cases negative with
  | true => rfl
  | false =>
    cases text with
    | nil => rfl
    | cons c rest =>
      have hc := h c rfl
      have hplus : c ≠ '+' := ne_of_isDigit hc (by decide)
      have hminus : c ≠ '-' := ne_of_isDigit hc (by decide)
      simp [signed, scanSign, isSign, hplus, hminus]

/-- A sign, digits, a point and more digits are scanned as one numeral. -/
theorem scan?_signed (negative : Bool) {whole fraction rest : List Char} (hne : whole ≠ [])
    (hwhole : ∀ c ∈ whole, c.isDigit = true) (hfraction : ∀ c ∈ fraction, c.isDigit = true)
    (hrest : EndsNumeral rest) :
    scan? (signed negative (whole ++ '.' :: fraction) ++ rest) =
      some (⟨if negative then ['-'] else [], whole, ['.'], fraction, none⟩, rest) := by
  have htext : signed negative (whole ++ '.' :: fraction) ++ rest =
      signed negative (whole ++ '.' :: (fraction ++ rest)) := by
    cases negative <;> simp [signed]
  have hhead : ∀ c ∈ (whole ++ '.' :: (fraction ++ rest)).head?, c.isDigit = true := by
    cases whole with
    | nil => exact absurd rfl hne
    | cons d whole =>
      exact forall_mem_head?_cons (P := fun c => Char.isDigit c = true) (hwhole d List.mem_cons_self) _
  have hpoint : scanDigits (whole ++ '.' :: (fraction ++ rest)) =
      (whole, '.' :: (fraction ++ rest)) :=
    scanDigits_append hwhole (forall_mem_head?_cons (by decide) _)
  have hplaces : scanDigits (fraction ++ rest) = (fraction, rest) :=
    scanDigits_append hfraction fun c hc => (hrest c hc).1
  have hempty : (whole.isEmpty && fraction.isEmpty) = false := by
    cases whole with
    | nil => exact absurd rfl hne
    | cons d whole => rfl
  rw [scan?, htext, scanSign_signed negative hhead]
  simp only [scanDigitsAndPoint?, hpoint, hplaces, hempty, Bool.false_eq_true, if_false,
    scanExponent_of_endsNumeral hrest]

end Numeral

/-- The double that a text denotes; `none` if it is not a numeral. -/
def numeralValue? (text : List Char) : Option Float :=
  match Numeral.scan? text with
  | some (numeral, []) => numeral.value?
  | _ => none

/-! ### Fixed places -/

/-- Digits with a point are the padded digits, cut into a part that is not empty and the places. -/
theorem exists_withPoint_eq (digits : List Char) (places : ℕ) :
    ∃ whole fraction, Decimal.withPoint digits places = whole ++ '.' :: fraction ∧ whole ≠ [] ∧
      fraction.length = places ∧
        whole ++ fraction = List.replicate (places + 1 - digits.length) '0' ++ digits := by
  have hlength : places + 1 ≤ (List.replicate (places + 1 - digits.length) '0' ++ digits).length := by
    rw [List.length_append, List.length_replicate]
    omega
  rw [Decimal.withPoint]
  generalize List.replicate (places + 1 - digits.length) '0' ++ digits = padded at hlength
  refine ⟨padded.take (padded.length - places), padded.drop (padded.length - places), rfl, ?_, ?_,
    List.take_append_drop _ _⟩
  · intro hempty
    have htake := congrArg List.length hempty
    rw [List.length_take, List.length_nil] at htake
    omega
  · rw [List.length_drop]
    omega

/-- The text of a finite double with places: a sign, digits and the point, and without the point the digits are
those of the number of units of the last place. -/
theorem exists_fixedChars_eq {x : Float} {negative : Bool} {mantissa : ℕ} {exponent : ℤ}
    (hx : Binary64.ofFloat x = .finite negative mantissa exponent) (places : ℕ) :
    ∃ whole fraction,
      fixedChars places x = signed negative (whole ++ if places = 0 then [] else '.' :: fraction) ∧
      whole ≠ [] ∧ (∀ c ∈ whole ++ fraction, c.isDigit = true) ∧ fraction.length = places ∧
      digitsValue? (whole ++ fraction) = some (scaledToPlaces places mantissa exponent) := by
  by_cases hplaces : places = 0
  · refine ⟨Decimal.digitChars (scaledToPlaces places mantissa exponent), [], ?_, Nat.toDigits_ne_nil, ?_,
      hplaces.symm, ?_⟩
    · simp only [fixedChars, hx, if_pos hplaces, List.append_nil]
    · rw [List.append_nil]
      exact fun c => isDigit_of_mem_digitChars
    · rw [List.append_nil, digitsValue?_digitChars]
  · obtain ⟨whole, fraction, htext, hne, hlength, hpadded⟩ :=
      exists_withPoint_eq (Decimal.digitChars (scaledToPlaces places mantissa exponent)) places
    refine ⟨whole, fraction, ?_, hne, ?_, hlength, ?_⟩
    · simp only [fixedChars, hx, if_neg hplaces, htext]
    · rw [hpadded]
      refine List.forall_mem_append.mpr ⟨fun c hc => ?_, fun c => isDigit_of_mem_digitChars⟩
      rw [List.eq_of_mem_replicate hc]
      rfl
    · rw [hpadded, digitsValue?_replicate_zero_append, digitsValue?_digitChars]

/-- The characters of a text with places are the sign, the point and digits. -/
theorem mem_signed_point {negative : Bool} {whole fraction : List Char} {places : ℕ}
    (hdigits : ∀ c ∈ whole ++ fraction, c.isDigit = true) {c : Char}
    (h : c ∈ signed negative (whole ++ if places = 0 then [] else '.' :: fraction)) :
    c = '-' ∨ c = '.' ∨ c.isDigit = true := by
  obtain ⟨hwhole, hfraction⟩ := List.forall_mem_append.mp hdigits
  have hunsigned : c = '-' ∨ c ∈ whole ++ if places = 0 then [] else '.' :: fraction := by
    cases negative with
    | true => exact List.mem_cons.mp h
    | false => exact Or.inr h
  have hparts : c = '-' ∨ c ∈ whole ∨ c = '.' ∨ c ∈ fraction := by
    refine hunsigned.imp_right fun hmem => (List.mem_append.mp hmem).imp_right fun hpoint => ?_
    split at hpoint
    · cases hpoint
    · exact List.mem_cons.mp hpoint
  obtain rfl | hmem | rfl | hmem := hparts
  · exact Or.inl rfl
  · exact Or.inr (Or.inr (hwhole c hmem))
  · exact Or.inr (Or.inl rfl)
  · exact Or.inr (Or.inr (hfraction c hmem))

/-- The characters of a double with places, be it finite or not. -/
theorem mem_fixedChars {places : ℕ} {x : Float} {c : Char} (h : c ∈ fixedChars places x) :
    c ∈ ['-', '.', 'N', 'a', 'i', 'n', 'f'] ∨ c.isDigit = true := by
  cases hx : Binary64.ofFloat x with
  | nan =>
    have hnan : ∀ d ∈ ['N', 'a', 'N'], d ∈ ['-', '.', 'N', 'a', 'i', 'n', 'f'] := by simp
    simp only [fixedChars, hx] at h
    exact Or.inl (hnan c h)
  | infinity negative =>
    have hinfinity : ∀ d ∈ signed negative ['i', 'n', 'f'], d ∈ ['-', '.', 'N', 'a', 'i', 'n', 'f'] := by
      cases negative <;> simp [signed]
    simp only [fixedChars, hx] at h
    exact Or.inl (hinfinity c h)
  | finite negative mantissa exponent =>
    obtain ⟨whole, fraction, htext, -, hdigits, -, -⟩ := exists_fixedChars_eq hx places
    rw [htext] at h
    obtain rfl | rfl | hdigit := mem_signed_point hdigits h
    · simp
    · simp
    · exact Or.inr hdigit

theorem exists_ofFloat_eq_finite {x : Float} (hx : x.isFinite = true) :
    ∃ negative mantissa exponent, Binary64.ofFloat x = .finite negative mantissa exponent := by
  rw [Binary64.ofFloat_eq]
  obtain ⟨s, hunpack⟩ | ⟨s, m, e, hpos, hunpack⟩ := unpack_cases_of_isFinite hx
  · rw [hunpack]
    exact ⟨_, _, _, rfl⟩
  · rw [hunpack]
    exact ⟨_, _, _, rfl⟩

/-- The text of a finite double with places is scanned as one numeral, whose number is the decimal that was
written. It is not empty and has digits, a sign and a point in it. -/
theorem exists_scan?_fixedChars {x : Float} {negative : Bool} {mantissa places : ℕ} {exponent : ℤ}
    (hx : Binary64.ofFloat x = .finite negative mantissa exponent) (hplaces : places ≠ 0) :
    ∃ numeral : Numeral,
      (∀ rest, EndsNumeral rest →
        Numeral.scan? (fixedChars places x ++ rest) = some (numeral, rest)) ∧
      numeral.value? =
        some (nearestDouble negative (scaledToPlaces places mantissa exponent) (-places)) ∧
      fixedChars places x ≠ [] ∧
      ∀ c ∈ fixedChars places x, c = '-' ∨ c = '.' ∨ c.isDigit = true := by
  obtain ⟨whole, fraction, hfixed, hne, hdigits, hlength, hvalue⟩ := exists_fixedChars_eq hx places
  obtain ⟨hwhole, hfraction⟩ := List.forall_mem_append.mp hdigits
  have hchars : ∀ c ∈ fixedChars places x, c = '-' ∨ c = '.' ∨ c.isDigit = true := by
    rw [hfixed]
    exact fun c => mem_signed_point hdigits
  rw [if_neg hplaces] at hfixed
  refine ⟨⟨if negative then ['-'] else [], whole, ['.'], fraction, none⟩, ?_, ?_, ?_, hchars⟩
  · intro rest hrest
    rw [hfixed]
    exact Numeral.scan?_signed negative hne hwhole hfraction hrest
  · have hsign : decide ((if negative then ['-'] else []) = ['-']) = negative := by
      cases negative <;> rfl
    simp only [Numeral.value?, hvalue, Numeral.exponentValue?, hlength, hsign, Int.zero_sub]
  · rw [hfixed]
    cases negative <;> simp [signed]

/-! ### What a text shows -/

/-- The integer nearest to a rational number, the even one of two that are equally near. -/
def IsNearestEven (q : ℚ) (n : ℕ) : Prop :=
  |(n : ℚ) - q| < 1 / 2 ∨ |(n : ℚ) - q| = 1 / 2 ∧ Even n

theorem isNearestEven_divideTiesToEven (numerator : ℕ) {denominator : ℕ} (h : 0 < denominator) :
    IsNearestEven (numerator / denominator) (divideTiesToEven numerator denominator) := by
  have hpos : (0 : ℚ) < denominator := by exact_mod_cast h
  have hrest : numerator % denominator < denominator := Nat.mod_lt _ h
  have hquotient : (numerator : ℚ) / denominator =
      (numerator / denominator : ℕ) + (numerator % denominator : ℕ) / denominator := by
    have hdivision : (numerator : ℚ) =
        denominator * (numerator / denominator : ℕ) + (numerator % denominator : ℕ) := by
      exact_mod_cast (Nat.div_add_mod numerator denominator).symm
    rw [div_eq_iff hpos.ne', add_mul, div_mul_cancel₀ _ hpos.ne', mul_comm, ← hdivision]
  rw [hquotient, divideTiesToEven]
  generalize numerator / denominator = quotient
  generalize numerator % denominator = rest at hrest
  -- the distances to the quotient and to its successor
  have hdown : |(quotient : ℚ) - (quotient + rest / denominator)| = rest / denominator := by
    rw [sub_add_cancel_left, abs_neg, abs_of_nonneg (by positivity)]
  have hup : |((quotient + 1 : ℕ) : ℚ) - (quotient + rest / denominator)| = 1 - rest / denominator := by
    have hle : (rest : ℚ) / denominator ≤ 1 := by
      rw [div_le_one hpos]
      exact_mod_cast hrest.le
    rw [Nat.cast_succ, add_sub_add_left_eq_sub, abs_of_nonneg (sub_nonneg.mpr hle)]
  split
  · next hlow =>
    have hhalf : (rest : ℚ) / denominator < 1 / 2 := by
      rw [div_lt_div_iff₀ hpos two_pos]
      exact_mod_cast (by omega : rest * 2 < 1 * denominator)
    exact Or.inl (hdown.trans_lt hhalf)
  · next hlow =>
    split
    · next hhigh =>
      have hhalf : 1 / 2 < (rest : ℚ) / denominator := by
        rw [div_lt_div_iff₀ two_pos hpos]
        exact_mod_cast (by omega : 1 * denominator < rest * 2)
      exact Or.inl (hup.trans_lt (by linarith))
    · next hhigh =>
      have hhalf : (rest : ℚ) / denominator = 1 / 2 := by
        rw [div_eq_div_iff hpos.ne' two_ne_zero]
        exact_mod_cast (by omega : rest * 2 = 1 * denominator)
      split
      · next heven => exact Or.inr ⟨hdown.trans hhalf, Nat.even_iff.mpr heven⟩
      · next hodd =>
        refine Or.inr ⟨by rw [hup, hhalf]; norm_num, ?_⟩
        exact Nat.even_iff.mpr (by omega)

theorem isNearestEven_scaledToPlaces (places mantissa : ℕ) (exponent : ℤ) :
    IsNearestEven (mantissa * 2 ^ exponent * 10 ^ places) (scaledToPlaces places mantissa exponent) := by
  have hpower : (2 : ℚ) ^ exponent = 2 ^ exponent.toNat / 2 ^ (-exponent).toNat := by
    rw [← zpow_natCast, ← zpow_natCast, ← zpow_sub₀ two_ne_zero]
    congr 1
    omega
  have hnearest := isNearestEven_divideTiesToEven
    (mantissa * 2 ^ exponent.toNat * 10 ^ places) (Nat.two_pow_pos (-exponent).toNat)
  have hscaled : (mantissa : ℚ) * 2 ^ exponent * 10 ^ places =
      (mantissa * 2 ^ exponent.toNat * 10 ^ places : ℕ) / (2 ^ (-exponent).toNat : ℕ) := by
    rw [hpower]
    push_cast
    ring
  rw [hscaled]
  exact hnearest

/-- What a text shows of a double with `places` digits after the point: its number rounded once to units of the
last place, with the point before the places if there are any, or which of the other doubles it is. -/
inductive ShowsFixed (places : ℕ) (x : Float) : String → Prop
  | nan (h : Binary64.ofFloat x = .nan) : ShowsFixed places x "NaN"
  | infinity {negative : Bool} (h : Binary64.ofFloat x = .infinity negative) :
    ShowsFixed places x (if negative then "-inf" else "inf")
  | finite {negative : Bool} {mantissa : ℕ} {exponent : ℤ} {whole fraction : List Char}
    (h : Binary64.ofFloat x = .finite negative mantissa exponent) (hne : whole ≠ [])
    (hdigits : ∀ c ∈ whole ++ fraction, c.isDigit = true) (hlength : fraction.length = places)
    (hnearest : IsNearestEven (mantissa * 2 ^ exponent * 10 ^ places)
      (Nat.ofDigitChars 10 (whole ++ fraction) 0)) :
    ShowsFixed places x ((if negative then "-" else "") ++ String.ofList whole ++
      if places = 0 then "" else "." ++ String.ofList fraction)

theorem showsFixed_fixedText (places : ℕ) (x : Float) : ShowsFixed places x (fixedText places x) := by
  cases hx : Binary64.ofFloat x with
  | nan =>
    have htext : fixedText places x = "NaN" := by
      rw [fixedText, fixedChars, hx]
    exact htext ▸ .nan hx
  | infinity negative =>
    have htext : fixedText places x = if negative then "-inf" else "inf" := by
      simp only [fixedText, fixedChars, hx]
      cases negative <;> rfl
    exact htext ▸ .infinity hx
  | finite negative mantissa exponent =>
    obtain ⟨whole, fraction, hchars, hne, hdigits, hlength, hvalue⟩ := exists_fixedChars_eq hx places
    have htext : fixedText places x = (if negative then "-" else "") ++ String.ofList whole ++
        if places = 0 then "" else "." ++ String.ofList fraction := by
      apply String.toList_injective
      rw [fixedText, hchars, String.toList_ofList]
      by_cases hplaces : places = 0 <;> cases negative <;> simp [signed, hplaces]
    have hnearest : IsNearestEven (mantissa * 2 ^ exponent * 10 ^ places)
        (Nat.ofDigitChars 10 (whole ++ fraction) 0) := by
      rw [digitsValue?, digitsValueFrom?_of_isDigit 0 hdigits, Option.some_inj] at hvalue
      rw [hvalue]
      exact isNearestEven_scaledToPlaces places mantissa exponent
    exact htext ▸ .finite hx hne hdigits hlength hnearest

end DelayTuning
