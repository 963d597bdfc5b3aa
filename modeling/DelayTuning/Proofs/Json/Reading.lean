import DelayTuning.Json.Parser
import DelayTuning.Json.Printer
import Mathlib

/-!
# Reading what has been written

A JSON value that is written and read again is the same value, provided that its floats are written so that
they read back. The text of a value may stand inside of an array or an object: what follows a value there
cannot be mistaken for a part of it.

## Main definitions

- `Json.Delimited`: what may follow a value
- `Json.StartsNumber`: the characters that a number begins with
- `Json.ReadsBack`: a value that is read where it has been written

## Main statements

- `Json.parseNumber?_append`: a number is read without what follows it
- `Json.parseString?_quote`: the characters of a text survive their escapes
- `Json.readsBack_array`, `Json.readsBack_object`: a value reads back if its parts do
- `Json.ofText?_render`: the text of a value that reads back
-/

namespace DelayTuning

namespace Json

/-- The end of a text, or what separates or closes values. -/
def Delimited (rest : List Char) : Prop :=
  ∀ c ∈ rest.head?, c = ',' ∨ c = ']' ∨ c = '\x7d'

theorem Delimited.head?_ne {rest : List Char} (h : Delimited rest) {c : Char}
    (hc : c ≠ ',' ∧ c ≠ ']' ∧ c ≠ '\x7d') : rest.head? ≠ some c := by
  intro hhead
  obtain heq | heq | heq := h c hhead
  · exact hc.1 heq
  · exact hc.2.1 heq
  · exact hc.2.2 heq

/-! ### Numbers -/

theorem parseFraction?_point (s : List Char) :
    parseFraction? ('.' :: s) = if (spanDigits s).1.isEmpty then none
      else some (some (spanDigits s).1, (spanDigits s).2) := rfl

theorem parseFraction?_of_head?_ne {s : List Char} (h : s.head? ≠ some '.') :
    parseFraction? s = some (none, s) := by
  rw [parseFraction?.eq_def]
  split
  · exact absurd rfl h
  · rfl

/-- The exponent whose digits stand at the front of a text, behind its letter and its sign. -/
def exponentDigits? (negative : Bool) (s : List Char) : Option (Option Int × List Char) :=
  match (spanDigits s).1.isEmpty, digitsValue? (spanDigits s).1 with
  | false, some n => some (some (if negative then -(n : Int) else n), (spanDigits s).2)
  | _, _ => none

theorem parseExponent?_minus {mark : Char} (h : mark = 'e' ∨ mark = 'E') (s : List Char) :
    parseExponent? (mark :: '-' :: s) = exponentDigits? true s := by
  rw [parseExponent?, if_pos h]
  rfl

theorem parseExponent?_plus {mark : Char} (h : mark = 'e' ∨ mark = 'E') (s : List Char) :
    parseExponent? (mark :: '+' :: s) = exponentDigits? false s := by
  rw [parseExponent?, if_pos h]
  rfl

theorem parseExponent?_unsigned {mark : Char} (h : mark = 'e' ∨ mark = 'E') {s : List Char}
    (hminus : s.head? ≠ some '-') (hplus : s.head? ≠ some '+') :
    parseExponent? (mark :: s) = exponentDigits? false s := by
  rw [parseExponent?, if_pos h]
  · rfl
  · rintro rest rfl
    exact hminus rfl
  · rintro rest rfl
    exact hplus rfl

theorem parseExponent?_of_head?_ne {s : List Char} (he : s.head? ≠ some 'e')
    (hE : s.head? ≠ some 'E') : parseExponent? s = some (none, s) := by
  cases s with
  | nil => rfl
  | cons c s =>
    rw [parseExponent?.eq_def]
    refine if_neg ?_
    rintro (rfl | rfl)
    · exact he rfl
    · exact hE rfl

/-- The number at the front of a text, behind its sign. -/
def unsignedNumber? (negative : Bool) (s : List Char) : Option (Json × List Char) :=
  if (spanDigits s).1.isEmpty ||
      (decide (1 < (spanDigits s).1.length) && (spanDigits s).1.headD '0' == '0') then none
  else
    match parseFraction? (spanDigits s).2 with
    | none => none
    | some (fraction, s') =>
      match parseExponent? s' with
      | none => none
      | some (exponent, s') =>
        some (ofNumberParts negative (spanDigits s).1 fraction exponent, s')

theorem parseNumber?_minus (s : List Char) : parseNumber? ('-' :: s) = unsignedNumber? true s :=
  rfl

theorem parseNumber?_of_head?_ne {s : List Char} (h : s.head? ≠ some '-') :
    parseNumber? s = unsignedNumber? false s := by
  rw [parseNumber?.eq_def]
  split
  next negative s' heq =>
  split at heq
  · exact absurd rfl h
  · obtain ⟨rfl, rfl⟩ := Prod.mk.inj heq
    rfl

section

variable {rest : List Char} (hrest : Delimited rest)

include hrest

theorem spanDigits_append (s : List Char) :
    spanDigits (s ++ rest) = ((spanDigits s).1, (spanDigits s).2 ++ rest) := by
  induction s with
  | nil =>
    cases rest with
    | nil => rfl
    | cons c rest =>
      obtain rfl | rfl | rfl := hrest c rfl
      · rfl
      · rfl
      · rfl
  | cons c s ih =>
    simp only [spanDigits, Prod.mk.injEq] at ih ⊢
    rw [List.cons_append, List.takeWhile_cons, List.dropWhile_cons, List.takeWhile_cons,
      List.dropWhile_cons]
    split
    · exact ⟨congrArg (c :: ·) ih.1, ih.2⟩
    · exact ⟨rfl, rfl⟩

theorem parseFraction?_append {s after : List Char} {fraction : Option (List Char)}
    (h : parseFraction? s = some (fraction, after)) :
    parseFraction? (s ++ rest) = some (fraction, after ++ rest) := by
  by_cases hpoint : s.head? = some '.'
  · obtain ⟨s, rfl⟩ := List.head?_eq_some_iff.mp hpoint
    rw [parseFraction?_point] at h
    rw [List.cons_append, parseFraction?_point, spanDigits_append hrest]
    by_cases hdigits : (spanDigits s).1.isEmpty = true
    · rw [if_pos hdigits] at h
      cases h
    · rw [if_neg hdigits] at h ⊢
      obtain ⟨rfl, rfl⟩ := Prod.mk.inj (Option.some.inj h)
      rfl
  · rw [parseFraction?_of_head?_ne hpoint] at h
    obtain ⟨rfl, rfl⟩ := Prod.mk.inj (Option.some.inj h)
    refine parseFraction?_of_head?_ne ?_
    cases s with
    | nil => exact hrest.head?_ne (by decide)
    | cons c s => exact hpoint

theorem exponentDigits?_append {negative : Bool} {s after : List Char} {exponent : Option Int}
    (h : exponentDigits? negative s = some (exponent, after)) :
    exponentDigits? negative (s ++ rest) = some (exponent, after ++ rest) := by
  rw [exponentDigits?] at h ⊢
  rw [spanDigits_append hrest]
  simp only
  split at h
  · obtain ⟨rfl, rfl⟩ := Prod.mk.inj (Option.some.inj h)
    rfl
  · cases h

theorem parseExponent?_append {s after : List Char} {exponent : Option Int}
    (h : parseExponent? s = some (exponent, after)) :
    parseExponent? (s ++ rest) = some (exponent, after ++ rest) := by
  cases s with
  | nil =>
    obtain ⟨rfl, rfl⟩ := Prod.mk.inj (Option.some.inj h)
    exact parseExponent?_of_head?_ne (hrest.head?_ne (by decide)) (hrest.head?_ne (by decide))
  | cons mark s =>
    by_cases hmark : mark = 'e' ∨ mark = 'E'
    · cases s with
      | nil =>
        rw [parseExponent?_unsigned hmark (by simp) (by simp)] at h
        cases h
      | cons c s =>
        by_cases hminus : c = '-'
        · subst hminus
          rw [parseExponent?_minus hmark] at h
          exact (parseExponent?_minus hmark _).trans (exponentDigits?_append hrest h)
        · by_cases hplus : c = '+'
          · subst hplus
            rw [parseExponent?_plus hmark] at h
            exact (parseExponent?_plus hmark _).trans (exponentDigits?_append hrest h)
          · have hsign : ∀ t : List Char, (c :: t).head? ≠ some '-' ∧ (c :: t).head? ≠ some '+' :=
              fun t => ⟨by simpa using hminus, by simpa using hplus⟩
            rw [parseExponent?_unsigned hmark (hsign s).1 (hsign s).2] at h
            exact (parseExponent?_unsigned hmark (hsign _).1 (hsign _).2).trans
              (exponentDigits?_append hrest h)
    · rw [not_or] at hmark
      have hhead : ∀ t : List Char, (mark :: t).head? ≠ some 'e' ∧ (mark :: t).head? ≠ some 'E' :=
        fun t => ⟨by simpa using hmark.1, by simpa using hmark.2⟩
      rw [parseExponent?_of_head?_ne (hhead s).1 (hhead s).2] at h
      obtain ⟨rfl, rfl⟩ := Prod.mk.inj (Option.some.inj h)
      exact parseExponent?_of_head?_ne (hhead _).1 (hhead _).2

theorem unsignedNumber?_append {negative : Bool} {s after : List Char} {v : Json}
    (h : unsignedNumber? negative s = some (v, after)) :
    unsignedNumber? negative (s ++ rest) = some (v, after ++ rest) := by
  rw [unsignedNumber?] at h ⊢
  rw [spanDigits_append hrest]
  simp only
  split at h
  · cases h
  · next hdigits =>
    rw [if_neg hdigits]
    split at h
    · cases h
    · next fraction s' hfraction =>
      rw [parseFraction?_append hrest hfraction]
      simp only
      split at h
      · cases h
      · next exponent s'' hexponent =>
        obtain ⟨rfl, rfl⟩ := Prod.mk.inj (Option.some.inj h)
        rw [parseExponent?_append hrest hexponent]

/-- A number is read up to what follows it. -/
theorem parseNumber?_append {s after : List Char} {v : Json} (h : parseNumber? s = some (v, after)) :
    parseNumber? (s ++ rest) = some (v, after ++ rest) := by
  cases s with
  | nil => cases h
  | cons c s =>
    by_cases hminus : c = '-'
    · subst hminus
      rw [parseNumber?_minus] at h
      exact (parseNumber?_minus _).trans (unsignedNumber?_append hrest h)
    · have hhead : ∀ t : List Char, (c :: t).head? ≠ some '-' := fun t => by simpa using hminus
      rw [parseNumber?_of_head?_ne (hhead s)] at h
      exact (parseNumber?_of_head?_ne (hhead _)).trans (unsignedNumber?_append hrest h)

end

/-! ### Texts -/

theorem hexValue?_hexDigit : ∀ n < 16, hexValue? (hexDigit n) = some n := by
  decide

/-- The escape of a character by its number, of which only control characters have need. -/
theorem parseUnicode?_control {c : Char} (h : c.toNat < 0x20) (rest : List Char) :
    parseUnicode? ('0' :: '0' :: hexDigit (c.toNat / 16) :: hexDigit (c.toNat % 16) :: rest) =
      some (c, rest) := by
  have hzero : hexValue? '0' = some 0 := by decide
  have hunit : parseHex? ('0' :: '0' :: hexDigit (c.toNat / 16) :: hexDigit (c.toNat % 16) :: rest) =
      some (c.toNat, rest) := by
    rw [parseHex?, hzero, hexValue?_hexDigit _ (by omega), hexValue?_hexDigit _ (by omega)]
    simp only [Option.bind_eq_bind, Option.bind_some]
    congr 2
    omega
  rw [parseUnicode?, hunit]
  simp only
  rw [if_neg (by omega), if_neg (by omega), Char.ofNat_toNat]

/-- An escaped character is read as this character. -/
theorem parseStringFrom?_escape (fuel : ℕ) (done : List Char) (c : Char) (rest : List Char) :
    parseStringFrom? (fuel + 1) done (escape c ++ rest) = parseStringFrom? fuel (c :: done) rest := by
  rw [escape]
  split_ifs with hquote hbackslash hfeed hreturn htab hbackspace hform hcontrol
  · subst hquote
    rfl
  · subst hbackslash
    rfl
  · subst hfeed
    rfl
  · subst hreturn
    rfl
  · subst htab
    rfl
  · subst hbackspace
    rfl
  · subst hform
    rfl
  · have hunicode := parseUnicode?_control hcontrol rest
    simp [parseStringFrom?, parseEscape?, hunicode]
  · rw [List.singleton_append, parseStringFrom?, if_neg hquote, if_neg hbackslash, if_neg hcontrol]

theorem parseStringFrom?_flatMap (cs : List Char) {fuel : ℕ} (hfuel : cs.length < fuel)
    (done rest : List Char) :
    parseStringFrom? fuel done (cs.flatMap escape ++ '"' :: rest) =
      some (String.ofList (done.reverse ++ cs), rest) := by
  obtain ⟨fuel, rfl⟩ := Nat.exists_eq_add_one_of_ne_zero (Nat.ne_of_gt (Nat.zero_lt_of_lt hfuel))
  induction cs generalizing fuel done with
  | nil => simp [parseStringFrom?]
  | cons c cs ih =>
    rw [List.length_cons, Nat.add_lt_add_iff_right] at hfuel
    obtain ⟨fuel, rfl⟩ := Nat.exists_eq_add_one_of_ne_zero (Nat.ne_of_gt (Nat.zero_lt_of_lt hfuel))
    rw [List.flatMap_cons, List.append_assoc, parseStringFrom?_escape, ih _ _ hfuel]
    simp

theorem length_le_length_flatMap_escape (cs : List Char) :
    cs.length ≤ (cs.flatMap escape).length := by
  induction cs with
  | nil => exact le_rfl
  | cons c cs ih =>
    have hescape : 0 < (escape c).length := by
      rw [escape]
      split_ifs <;> simp
    rw [List.flatMap_cons, List.length_append, List.length_cons]
    omega

/-- A text in quotes is read up to its closing quote. -/
theorem parseString?_quote (s : String) (rest : List Char) :
    parseString? (s.toList.flatMap escape ++ '"' :: rest) = some (s, rest) := by
  have hlength := length_le_length_flatMap_escape s.toList
  rw [parseString?, parseStringFrom?_flatMap s.toList]
  · simp
  · simp only [List.length_append]
    omega

/-! ### Values -/

theorem skipSpace_cons {c : Char} (h : isSpace c = false) (rest : List Char) :
    skipSpace (c :: rest) = c :: rest := by
  rw [skipSpace, List.dropWhile_cons_of_neg]
  simp [h]

/-- A value whose text is read as this value, wherever the text stands. Two units of fuel for each
    character are enough. -/
structure ReadsBack (v : Json) : Prop where
  front : ∃ c after, (render v).toList = c :: after ∧ isSpace c = false ∧ c ≠ ']'
  parse : ∀ {rest : List Char}, Delimited rest → ∀ {fuel : ℕ}, 2 * (render v).toList.length ≤ fuel →
    parseValue? fuel ((render v).toList ++ rest) = some (v, rest)

theorem readsBack_text (s : String) : ReadsBack (.text s) := by
  have htext : (render (.text s)).toList = '"' :: (s.toList.flatMap escape ++ ['"']) := by
    simp [render, quote]
  refine ⟨⟨'"', _, htext, rfl, by decide⟩, ?_⟩
  intro rest _ fuel hfuel
  rw [htext] at hfuel ⊢
  obtain ⟨fuel, rfl⟩ := Nat.exists_eq_add_of_le' (show 1 ≤ fuel by simp at hfuel; omega)
  have hstring := parseString?_quote s rest
  rw [List.cons_append, List.append_assoc, List.singleton_append, parseValue?, skipSpace_cons rfl]
  simp only [hstring, Option.map_some]

/-- Whether a character may stand at the front of a number. -/
def StartsNumber (c : Char) : Prop :=
  c = '-' ∨ isDigit c = true

instance instDecidableStartsNumber (c : Char) : Decidable (StartsNumber c) :=
  inferInstanceAs (Decidable (_ ∨ _))

theorem StartsNumber.ne {c d : Char} (h : StartsNumber c) (hd : ¬ StartsNumber d) : c ≠ d := by
  rintro rfl
  exact hd h

theorem StartsNumber.isSpace_eq_false {c : Char} (h : StartsNumber c) : isSpace c = false := by
  rw [isSpace]
  simp only [Bool.or_eq_false_iff, beq_eq_false_iff_ne]
  exact ⟨⟨⟨h.ne (by decide), h.ne (by decide)⟩, h.ne (by decide)⟩, h.ne (by decide)⟩

theorem exists_startsNumber {s after : List Char} {v : Json} (h : parseNumber? s = some (v, after)) :
    ∃ c rest, s = c :: rest ∧ StartsNumber c := by
  cases s with
  | nil => cases h
  | cons c s =>
    refine ⟨c, s, rfl, ?_⟩
    by_contra hc
    rw [StartsNumber, not_or] at hc
    have hminus : (c :: s).head? ≠ some '-' := by simpa using hc.1
    rw [parseNumber?_of_head?_ne hminus, unsignedNumber?, spanDigits] at h
    simp [hc.2] at h

/-- Where a sign or a digit stands, the value is a number. -/
theorem parseValue?_number {c : Char} (h : StartsNumber c) (fuel : ℕ) (s : List Char) :
    parseValue? (fuel + 1) (c :: s) = parseNumber? (c :: s) := by
  rw [parseValue?.eq_def]
  simp only [skipSpace_cons h.isSpace_eq_false]
  split
  · next heq => exact absurd (List.cons.inj heq).1 (h.ne (by decide))
  · next heq => exact absurd (List.cons.inj heq).1 (h.ne (by decide))
  · next heq => exact absurd (List.cons.inj heq).1 (h.ne (by decide))
  · next heq => exact absurd (List.cons.inj heq).1 (h.ne (by decide))
  · next heq => exact absurd (List.cons.inj heq).1 (h.ne (by decide))
  · next heq => exact absurd (List.cons.inj heq).1 (h.ne (by decide))
  · rfl

theorem readsBack_float {x : Float}
    (h : parseNumber? (renderFloat x).toList = some (.float x, [])) : ReadsBack (.float x) := by
  obtain ⟨c, after, htext, hc⟩ := exists_startsNumber h
  have hrender : (render (.float x)).toList = c :: after := by rw [render, htext]
  refine ⟨⟨c, after, hrender, hc.isSpace_eq_false, hc.ne (by decide)⟩, ?_⟩
  intro rest hrest fuel hfuel
  rw [hrender, List.length_cons] at hfuel
  obtain ⟨fuel, rfl⟩ := Nat.exists_eq_add_of_le' (show 1 ≤ fuel by omega)
  rw [htext] at h
  rw [hrender, List.cons_append, parseValue?_number hc]
  exact parseNumber?_append hrest h

/-- The text of several parts, without what encloses them. -/
theorem toList_intercalate_cons_cons (part next : String) (parts : List String) :
    (",".intercalate (part :: next :: parts)).toList =
      part.toList ++ ',' :: (",".intercalate (next :: parts)).toList := by
  simp [String.toList_intercalate]

theorem toList_intercalate_singleton (part : String) :
    (",".intercalate [part]).toList = part.toList := by
  simp

theorem delimited_comma (rest : List Char) : Delimited (',' :: rest) :=
  fun _ hc => Or.inl (Option.some.inj hc).symm

theorem delimited_bracket (rest : List Char) : Delimited (']' :: rest) :=
  fun _ hc => Or.inr (Or.inl (Option.some.inj hc).symm)

theorem delimited_brace (rest : List Char) : Delimited ('\x7d' :: rest) :=
  fun _ hc => Or.inr (Or.inr (Option.some.inj hc).symm)

theorem exists_front_items {v : Json} {items : List Json} (h : ∀ w ∈ v :: items, ReadsBack w) :
    ∃ c after, (",".intercalate (renderItems (v :: items))).toList = c :: after ∧
      isSpace c = false ∧ c ≠ ']' := by
  obtain ⟨c, after, hfront, hc⟩ := (h v List.mem_cons_self).front
  cases items with
  | nil => exact ⟨c, after, by rw [renderItems, renderItems, toList_intercalate_singleton, hfront], hc⟩
  | cons w items =>
    rw [renderItems, renderItems, toList_intercalate_cons_cons, hfront]
    exact ⟨c, _, rfl, hc⟩

/-- Items that read back are read up to the closing bracket. -/
theorem parseItems?_render (rest : List Char) {v : Json} {items : List Json}
    (h : ∀ w ∈ v :: items, ReadsBack w) {fuel : ℕ}
    (hfuel : 2 * (",".intercalate (renderItems (v :: items))).toList.length + 1 ≤ fuel) :
    parseItems? fuel ((",".intercalate (renderItems (v :: items))).toList ++ ']' :: rest) =
      some (v :: items, rest) := by
  obtain ⟨fuel, rfl⟩ := Nat.exists_eq_add_of_le' (show 1 ≤ fuel by omega)
  have hv := h v List.mem_cons_self
  induction items generalizing v fuel with
  | nil =>
    rw [renderItems, renderItems, toList_intercalate_singleton] at hfuel ⊢
    rw [parseItems?, hv.parse (delimited_bracket rest) (by omega)]
    simp only [skipSpace_cons (rfl : isSpace ']' = false)]
  | cons w items ih =>
    have hw := h w (List.mem_cons_of_mem v List.mem_cons_self)
    rw [renderItems, renderItems, toList_intercalate_cons_cons, ← renderItems, List.length_append,
      List.length_cons] at hfuel
    obtain ⟨fuel, rfl⟩ := Nat.exists_eq_add_of_le' (show 1 ≤ fuel by omega)
    rw [renderItems, renderItems, toList_intercalate_cons_cons, ← renderItems, List.append_assoc,
      List.cons_append, parseItems?, hv.parse (delimited_comma _) (by omega)]
    simp only [skipSpace_cons (rfl : isSpace ',' = false)]
    rw [ih (fun u hu => h u (List.mem_cons_of_mem v hu)) _ (by omega) hw]
    rfl

/-- An array reads back if its items do. -/
theorem readsBack_array {items : List Json} (h : ∀ v ∈ items, ReadsBack v) :
    ReadsBack (.array items) := by
  have htext : (render (.array items)).toList =
      '[' :: ((",".intercalate (renderItems items)).toList ++ [']']) := by
    simp [render]
  refine ⟨⟨'[', _, htext, rfl, by decide⟩, ?_⟩
  intro rest _ fuel hfuel
  rw [htext, List.length_cons, List.length_append, List.length_singleton] at hfuel
  obtain ⟨fuel, rfl⟩ := Nat.exists_eq_add_of_le' (show 1 ≤ fuel by omega)
  rw [htext, List.cons_append, List.append_assoc, List.singleton_append, parseValue?.eq_def]
  simp only [skipSpace_cons (rfl : isSpace '[' = false)]
  cases items with
  | nil => rfl
  | cons v items =>
    have hitems := @parseItems?_render rest v items h fuel (by omega)
    obtain ⟨c, after, hfront, hspace, hbracket⟩ := exists_front_items h
    rw [hfront, List.cons_append] at hitems ⊢
    rw [skipSpace_cons hspace]
    split
    · next heq => exact absurd (List.cons.inj heq).1 hbracket
    · rw [hitems]
      rfl

theorem insertField_of_notMem {key : String} (value : Json) {fields : List (String × Json)}
    (h : key ∉ fields.map Prod.fst) : insertField key value fields = fields ++ [(key, value)] := by
  induction fields with
  | nil => rfl
  | cons field fields ih =>
    rw [List.map_cons, List.mem_cons, not_or] at h
    rw [insertField, if_neg (Ne.symm h.1), ih h.2, List.cons_append]

theorem toList_fieldText (key : String) (v : Json) :
    (quote key ++ ":" ++ render v).toList =
      '"' :: (key.toList.flatMap escape ++ '"' :: ':' :: (render v).toList) := by
  simp [quote]

/-- A field is read up to the comma behind it. -/
theorem parseFields?_comma (key : String) {v : Json} (h : ReadsBack v) {fuel : ℕ}
    (hfuel : 2 * (render v).toList.length ≤ fuel) (done : List (String × Json)) (rest : List Char) :
    parseFields? (fuel + 1) done ((quote key ++ ":" ++ render v).toList ++ ',' :: rest) =
      parseFields? fuel (insertField key v done) rest := by
  have hkey := parseString?_quote key (':' :: ((render v).toList ++ ',' :: rest))
  have hvalue := h.parse (delimited_comma rest) hfuel
  rw [toList_fieldText, List.cons_append, List.append_assoc, List.cons_append, List.cons_append,
    parseFields?, skipSpace_cons (rfl : isSpace '"' = false)]
  simp only [hkey, hvalue, skipSpace_cons (rfl : isSpace ':' = false),
    skipSpace_cons (rfl : isSpace ',' = false)]

/-- A field is read up to the brace behind it, which ends the object. -/
theorem parseFields?_brace (key : String) {v : Json} (h : ReadsBack v) {fuel : ℕ}
    (hfuel : 2 * (render v).toList.length ≤ fuel) (done : List (String × Json)) (rest : List Char) :
    parseFields? (fuel + 1) done ((quote key ++ ":" ++ render v).toList ++ '\x7d' :: rest) =
      some (insertField key v done, rest) := by
  have hkey := parseString?_quote key (':' :: ((render v).toList ++ '\x7d' :: rest))
  have hvalue := h.parse (delimited_brace rest) hfuel
  rw [toList_fieldText, List.cons_append, List.append_assoc, List.cons_append, List.cons_append,
    parseFields?, skipSpace_cons (rfl : isSpace '"' = false)]
  simp only [hkey, hvalue, skipSpace_cons (rfl : isSpace ':' = false),
    skipSpace_cons (rfl : isSpace '\x7d' = false)]

theorem length_render_lt (key : String) (v : Json) :
    (render v).toList.length < (quote key ++ ":" ++ render v).toList.length := by
  rw [toList_fieldText]
  simp only [List.length_cons, List.length_append]
  omega

theorem key_notMem_of_nodup {key : String} {v : Json} {done fields : List (String × Json)}
    (h : ((done ++ (key, v) :: fields).map Prod.fst).Nodup) : key ∉ done.map Prod.fst := by
  rw [List.map_append, List.map_cons] at h
  intro hmem
  exact (List.nodup_append.mp h).2.2 key hmem key List.mem_cons_self rfl

/-- Fields that read back are read up to the closing brace, if all keys are different. -/
theorem parseFields?_render (rest : List Char) {field : String × Json} {fields : List (String × Json)}
    (h : ∀ f ∈ field :: fields, ReadsBack f.2) {done : List (String × Json)}
    (hkeys : ((done ++ field :: fields).map Prod.fst).Nodup) {fuel : ℕ}
    (hfuel : 2 * (",".intercalate (renderFields (field :: fields))).toList.length + 1 ≤ fuel) :
    parseFields? fuel done
        ((",".intercalate (renderFields (field :: fields))).toList ++ '\x7d' :: rest) =
      some (done ++ field :: fields, rest) := by
  obtain ⟨fuel, rfl⟩ := Nat.exists_eq_add_of_le' (show 1 ≤ fuel by omega)
  induction fields generalizing field done fuel with
  | nil =>
    obtain ⟨key, v⟩ := field
    have hnew := key_notMem_of_nodup hkeys
    have hv : ReadsBack v := h _ List.mem_cons_self
    rw [renderFields, renderFields, toList_intercalate_singleton] at hfuel ⊢
    have hlength := length_render_lt key v
    rw [parseFields?_brace key hv (by omega), insertField_of_notMem v hnew]
  | cons next fields ih =>
    obtain ⟨key, v⟩ := field
    have hnew := key_notMem_of_nodup hkeys
    have hv : ReadsBack v := h _ List.mem_cons_self
    have hlength := length_render_lt key v
    have hjoined : renderFields ((key, v) :: next :: fields) =
        (quote key ++ ":" ++ render v) :: renderFields (next :: fields) := rfl
    have hnext : renderFields (next :: fields) =
        (quote next.1 ++ ":" ++ render next.2) :: renderFields fields := rfl
    rw [hjoined, hnext, toList_intercalate_cons_cons, ← hnext] at hfuel ⊢
    rw [List.length_append, List.length_cons] at hfuel
    obtain ⟨fuel, rfl⟩ := Nat.exists_eq_add_of_le' (show 1 ≤ fuel by omega)
    rw [List.append_assoc, List.cons_append, parseFields?_comma key hv (by omega),
      insertField_of_notMem v hnew]
    have hdone : done ++ (key, v) :: next :: fields = (done ++ [(key, v)]) ++ next :: fields := by simp
    rw [hdone] at hkeys ⊢
    exact ih (fun f hf => h f (List.mem_cons_of_mem _ hf)) hkeys _ (by omega)

/-- The text of a list of fields begins with a key. -/
theorem exists_front_fields (field : String × Json) (fields : List (String × Json)) :
    ∃ after, (",".intercalate (renderFields (field :: fields))).toList = '"' :: after := by
  obtain ⟨key, v⟩ := field
  have hfield := toList_fieldText key v
  cases fields with
  | nil => exact ⟨_, by rw [renderFields, renderFields, toList_intercalate_singleton, hfield]⟩
  | cons next fields =>
    obtain ⟨key', v'⟩ := next
    rw [renderFields, renderFields, toList_intercalate_cons_cons, hfield]
    exact ⟨_, rfl⟩

/-- An object reads back if its values do and its keys are different. -/
theorem readsBack_object {fields : List (String × Json)} (hkeys : (fields.map Prod.fst).Nodup)
    (h : ∀ field ∈ fields, ReadsBack field.2) : ReadsBack (.object fields) := by
  have htext : (render (.object fields)).toList =
      '\x7b' :: ((",".intercalate (renderFields fields)).toList ++ ['\x7d']) := by
    simp [render]
  refine ⟨⟨'\x7b', _, htext, rfl, by decide⟩, ?_⟩
  intro rest _ fuel hfuel
  rw [htext, List.length_cons, List.length_append, List.length_singleton] at hfuel
  obtain ⟨fuel, rfl⟩ := Nat.exists_eq_add_of_le' (show 1 ≤ fuel by omega)
  rw [htext, List.cons_append, List.append_assoc, List.singleton_append, parseValue?.eq_def]
  simp only [skipSpace_cons (rfl : isSpace '\x7b' = false)]
  cases fields with
  | nil => rfl
  | cons field fields =>
    have hfields := @parseFields?_render rest field fields h [] hkeys fuel (by omega)
    obtain ⟨after, hfront⟩ := exists_front_fields field fields
    rw [hfront, List.cons_append] at hfields ⊢
    rw [skipSpace_cons (rfl : isSpace '"' = false)]
    exact congrArg (Option.map fun (p : List (String × Json) × List Char) => (Json.object p.1, p.2))
      hfields

/-- The text of a value that reads back. -/
theorem ofText?_render {v : Json} (h : ReadsBack v) : ofText? v.render = some v := by
  have hend : Delimited [] := by simp [Delimited]
  have hparse := h.parse hend (Nat.le_add_right (2 * v.render.toList.length) 2)
  rw [List.append_nil] at hparse
  rw [ofText?, hparse]
  rfl

end Json

end DelayTuning
