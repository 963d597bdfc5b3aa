import DelayTuning.Proofs.Log.Numeral

/-!
# The grammar of marker lines

The text behind a marker is cut by a scanner that looks for the next token and takes as much as it can. What the
scanner accepts is a grammar: tokens that are written with the digits `0` to `9`, with nothing but white space
and commas before, between and after them. What follows a token cannot be taken for more of its number, so the
scanner finds the tokens of such a text, and there is no other way to cut it.

## Main definitions

- `Token.Written`: the tokens that are written with digits `0` to `9`
- `WrittenAs`: a text that is made of tokens and separators
- `Token.entry`: the index and the number that are read from a token

## Main statements

- `Token.scan?_of_written`: a written token is scanned as a whole
- `WrittenAs.exists_pieces`: the scanner finds the tokens
- `WrittenAs.unique`: there is only one way to cut a text
- `readPoint_of_writtenAs`: what is read from tokens and separators
- `exists_writtenAs`: what is read without a fault is made of tokens and separators
-/

namespace DelayTuning

/-! ### Separators -/

/-- White space and commas only. -/
def AreSeparators (s : List Char) : Prop :=
  ∀ c ∈ s, isSeparator c = true

theorem checkGap_eq_ok_iff (gap : List Char) : checkGap gap = .ok () ↔ AreSeparators gap := by
  have htrim : (trimSeparators gap).isEmpty = true ↔ AreSeparators gap := by
    rw [List.isEmpty_iff, trimSeparators, List.reverse_eq_nil_iff, List.dropWhile_eq_nil_iff]
    constructor
    · intro h
      have hempty : gap.dropWhile isSeparator = [] := by
        cases hdrop : gap.dropWhile isSeparator with
        | nil => rfl
        | cons c rest =>
          have hc : isSeparator c = false := by
            have hhead := List.head?_dropWhile_not isSeparator gap
            rw [hdrop] at hhead
            exact hhead
          have hmem : c ∈ (gap.dropWhile isSeparator).reverse := by
            rw [hdrop, List.mem_reverse]
            exact List.mem_cons_self
          rw [h c hmem] at hc
          cases hc
      exact List.dropWhile_eq_nil_iff.mp hempty
    · intro h c hc
      rw [List.mem_reverse] at hc
      exact h c ((List.dropWhile_sublist _).subset hc)
  rw [checkGap, ← htrim]
  split
  · next h => exact iff_of_true rfl h
  · next h => exact iff_of_false (fun heq => by cases heq) h

/-- The code points of separators. -/
def separatorCodes : List ℕ :=
  [9, 10, 11, 12, 13, 0x20, 0x2C, 0x85, 0xA0, 0x1680, 0x2000, 0x2001, 0x2002, 0x2003, 0x2004, 0x2005, 0x2006,
    0x2007, 0x2008, 0x2009, 0x200A, 0x2028, 0x2029, 0x202F, 0x205F, 0x3000]

theorem toNat_mem_separatorCodes {c : Char} (h : isSeparator c = true) : c.toNat ∈ separatorCodes := by
  rw [isSeparator, Bool.or_eq_true, beq_iff_eq] at h
  obtain hblank | rfl := h
  · simp only [isBlank, Bool.or_eq_true, Bool.and_eq_true, beq_iff_eq, decide_eq_true_eq] at hblank
    simp only [separatorCodes, List.mem_cons, List.not_mem_nil, or_false]
    omega
  · decide

theorem isDecimalDigit_eq_false_of_isSeparator {c : Char} (h : isSeparator c = true) :
    isDecimalDigit c = false := by
  have hcodes : ∀ n ∈ separatorCodes,
      (zeroDigits.any fun first => decide (first ≤ n) && decide (n < first + 10)) = false := by
    decide
  exact hcodes c.toNat (toNat_mem_separatorCodes h)

theorem ne_of_isSeparator {c d : Char} (hc : isSeparator c = true) (hd : isSeparator d = false) : c ≠ d := by
  rintro rfl
  rw [hc] at hd
  cases hd

/-- What may follow a token: a separator, another token or nothing. -/
def EndsToken (rest : List Char) : Prop :=
  ∀ c ∈ rest.head?, isSeparator c = true ∨ c = '['

theorem EndsToken.endsNumeral {rest : List Char} (h : EndsToken rest) :
    EndsNumeral rest ∧ ∀ c ∈ rest.head?, c ≠ '.' := by
  have hfacts : ∀ c ∈ rest.head?, (isDecimalDigit c = false ∧ c ≠ 'e' ∧ c ≠ 'E') ∧ c ≠ '.' := by
    intro c hc
    obtain hseparator | rfl := h c hc
    · exact ⟨⟨isDecimalDigit_eq_false_of_isSeparator hseparator, ne_of_isSeparator hseparator rfl,
        ne_of_isSeparator hseparator rfl⟩, ne_of_isSeparator hseparator rfl⟩
    · decide
  exact ⟨fun c hc => (hfacts c hc).1, fun c hc => (hfacts c hc).2⟩

/-! ### Tokens -/

theorem span_blanks {blanks rest : List Char} (h : ∀ c ∈ blanks, isBlank c = true)
    (hrest : ∀ c ∈ rest.head?, isBlank c = false) :
    (blanks ++ rest).dropWhile isBlank = rest ∧ (blanks ++ rest).takeWhile isBlank = blanks := by
  obtain ⟨hdrop, htake⟩ := dropWhile_isBlank hrest
  rw [List.dropWhile_append_of_pos h, List.takeWhile_append_of_pos h, hdrop, htake, List.append_nil]
  exact ⟨rfl, rfl⟩

namespace Token

/-- An index in brackets, an equals sign with optional white space around it, and a number. -/
structure Written (t : Token) : Prop where
  index : AreDigits t.index
  before : ∀ c ∈ t.before, isBlank c = true
  after : ∀ c ∈ t.after, isBlank c = true
  number : t.number.Written

/-- The number in the brackets. -/
def position (t : Token) : ℕ :=
  Nat.ofDigitChars 10 t.index 0

/-- The index and the number that are read from a token. -/
def entry (t : Token) : ℕ × Float :=
  (t.position, t.number.nearest)

/-- A written token is scanned as a whole. -/
theorem scan?_of_written {t : Token} (h : t.Written) {rest : List Char} (hrest : EndsToken rest) :
    scan? (t.text ++ rest) = some (t, rest) := by
  obtain ⟨index, before, after, number⟩ := t
  obtain ⟨hindex, hbefore, hafter, hnumber⟩ := h
  obtain ⟨hend, hpoint⟩ := hrest.endsNumeral
  have htext : text ⟨index, before, after, number⟩ ++ rest =
      '[' :: (index ++ ']' :: (before ++ '=' :: (after ++ (number.text ++ rest)))) := by
    simp only [text, List.cons_append, List.append_assoc]
  have hbracket : ∀ more, ∀ c ∈ (']' :: more).head?, isDecimalDigit c = false :=
    forall_mem_head?_cons (by decide)
  have hequals : ∀ more, ∀ c ∈ ('=' :: more).head?, isBlank c = false :=
    forall_mem_head?_cons (by decide)
  have hdigits := Numeral.scanDigits_append hindex.2
    (hbracket (before ++ '=' :: (after ++ (number.text ++ rest))))
  have hsome : index.isEmpty = false := List.isEmpty_eq_false_iff.mpr hindex.1
  obtain ⟨hdrop, htake⟩ := span_blanks hbefore (hequals (after ++ (number.text ++ rest)))
  obtain ⟨hdrop', htake'⟩ := span_blanks hafter (Numeral.isBlank_head?_text hnumber rest)
  rw [htext]
  simp only [scan?, scanIndex?, expect?, if_true, hdigits, hsome, Bool.false_eq_true, if_false,
    Option.map_some, hdrop, htake, hdrop', htake', Numeral.scan?_of_written hnumber hend hpoint]

theorem scan?_eq_none {c : Char} (h : c ≠ '[') (rest : List Char) : scan? (c :: rest) = none := by
  have hindex : scanIndex? (c :: rest) = none := by
    rw [scanIndex?, expect?, if_neg h]
  rw [scan?, hindex]

/-- A written token is read if its index fits into a machine word. -/
theorem readToken_of_written {t : Token} (h : t.Written) (hposition : t.position ≤ maxIndex)
    {gap : List Char} (hgap : AreSeparators gap) : readToken gap t = .ok t.entry := by
  have hindex : readIndex t.index = .ok t.position := by
    rw [readIndex, Numeral.digitsValue?_of_isDigit h.index.2]
    exact if_pos hposition
  have hnumber : readNumber t.number = .ok t.number.nearest := by
    rw [readNumber, Numeral.value?_of_written h.number]
  rw [readToken, (checkGap_eq_ok_iff gap).mpr hgap]
  simp only [hindex, hnumber, entry]

theorem areDigits_of_readIndex {digits : List Char} {i : ℕ} (h : readIndex digits = .ok i) :
    (∀ c ∈ digits, c.isDigit = true) ∧ Nat.ofDigitChars 10 digits 0 ≤ maxIndex := by
  rw [readIndex] at h
  split at h
  · next n hvalue =>
    split at h
    · next hle =>
      have hdigits := Numeral.isDigit_of_digitsValueFrom? hvalue
      rw [Numeral.digitsValue?_of_isDigit hdigits] at hvalue
      cases hvalue
      exact ⟨hdigits, hle⟩
    · cases h
  · cases h

theorem index_ne_nil_of_scanIndex? {s index rest : List Char} (h : scanIndex? s = some (index, rest)) :
    index ≠ [] := by
  rw [scanIndex?] at h
  split at h
  · cases h
  simp only at h
  split at h
  · cases h
  next hne =>
  obtain ⟨afterBracket, -, hfound⟩ := Option.map_eq_some_iff.mp h
  cases hfound
  exact fun hempty => hne (List.isEmpty_iff.mpr hempty)

theorem isBlank_of_mem_takeWhile {c : Char} {s : List Char} (h : c ∈ s.takeWhile isBlank) :
    isBlank c = true :=
  List.all_eq_true.mp List.all_takeWhile c h

/-- A token that is scanned and read is a written one. -/
theorem written_of_readToken {s rest gap : List Char} {t : Token} {entry : ℕ × Float}
    (hscan : scan? s = some (t, rest)) (hread : readToken gap t = .ok entry) :
    t.Written ∧ t.position ≤ maxIndex ∧ AreSeparators gap := by
  obtain ⟨hgap, i, hindex, x, hnumber⟩ : checkGap gap = .ok () ∧ ∃ i, readIndex t.index = .ok i ∧
      ∃ x, t.number.value? = some x := by
    rw [readToken] at hread
    split at hread
    · cases hread
    next hgap =>
    split at hread
    · cases hread
    next i hindex =>
    refine ⟨hgap, i, hindex, ?_⟩
    split at hread
    · cases hread
    next x hnumber =>
    rw [readNumber] at hnumber
    split at hnumber
    · next hvalue => exact ⟨_, hvalue⟩
    · cases hnumber
  obtain ⟨hdigits, hposition⟩ := areDigits_of_readIndex hindex
  refine ⟨?_, hposition, (checkGap_eq_ok_iff gap).mp hgap⟩
  rw [scan?] at hscan
  split at hscan
  · cases hscan
  next index afterBracket hbracket =>
  split at hscan
  · cases hscan
  next afterEquals hequals =>
  split at hscan
  · cases hscan
  next number afterNumber hfound =>
  cases hscan
  exact ⟨⟨index_ne_nil_of_scanIndex? hbracket, hdigits⟩, fun _ => isBlank_of_mem_takeWhile,
    fun _ => isBlank_of_mem_takeWhile, Numeral.written_of_scan? hfound hnumber⟩

end Token

theorem nextToken?_append {gap text rest : List Char} {t : Token} (hgap : AreSeparators gap)
    (hscan : Token.scan? text = some (t, rest)) : nextToken? (gap ++ text) = some (gap, t, rest) := by
  induction gap with
  | nil =>
    cases text with
    | nil => cases hscan
    | cons c others =>
      rw [List.nil_append, nextToken?, hscan]
  | cons c others ih =>
    obtain ⟨hc, hothers⟩ := List.forall_mem_cons.mp hgap
    rw [List.cons_append, nextToken?, Token.scan?_eq_none (ne_of_isSeparator hc rfl), ih hothers]
    rfl

theorem nextToken?_eq_none {s : List Char} (h : AreSeparators s) : nextToken? s = none := by
  induction s with
  | nil => rfl
  | cons c rest ih =>
    obtain ⟨hc, hrest⟩ := List.forall_mem_cons.mp h
    rw [nextToken?, Token.scan?_eq_none (ne_of_isSeparator hc rfl), ih hrest]
    rfl

theorem scan?_of_nextToken? {s gap rest : List Char} {t : Token} (h : nextToken? s = some (gap, t, rest)) :
    ∃ s', Token.scan? s' = some (t, rest) := by
  induction s generalizing gap with
  | nil => cases h
  | cons c tail ih =>
    rw [nextToken?] at h
    split at h
    · next hscan =>
      cases h
      exact ⟨_, hscan⟩
    · obtain ⟨⟨gap', token', rest'⟩, hnext, hfound⟩ := Option.map_eq_some_iff.mp h
      cases hfound
      exact ih hnext

/-! ### Texts -/

/-- A text that is made of tokens, with nothing but separators before, between and after them. -/
inductive WrittenAs : List Token → List Char → Prop
  | separators {s : List Char} (hs : AreSeparators s) : WrittenAs [] s
  | token {gap rest : List Char} {t : Token} {ts : List Token} (hgap : AreSeparators gap) (ht : t.Written)
    (hrest : WrittenAs ts rest) : WrittenAs (t :: ts) (gap ++ t.text ++ rest)

namespace WrittenAs

variable {ts ts' : List Token} {s : List Char}

theorem endsToken (h : WrittenAs ts s) : EndsToken s := by
  intro c hc
  cases h with
  | separators hs => exact Or.inl (hs c (List.mem_of_mem_head? hc))
  | @token gap rest t ts hgap ht hrest =>
    cases gap with
    | nil => exact Or.inr (Option.some_inj.mp hc).symm
    | cons d others =>
      obtain rfl : d = c := Option.some_inj.mp hc
      exact Or.inl (hgap d List.mem_cons_self)

theorem length_le (h : WrittenAs ts s) : ts.length ≤ s.length := by
  induction h with
  | separators hs => exact Nat.zero_le _
  | @token gap rest t ts hgap ht hrest ih =>
    have htext : 1 ≤ t.text.length := by
      simp only [Token.text, List.cons_append, List.length_cons]
      exact Nat.le_add_left 1 _
    rw [List.length_cons, List.length_append, List.length_append]
    omega

/-- The scanner finds the tokens of a text, with separators in all gaps. -/
theorem exists_pieces (h : WrittenAs ts s) {fuel : ℕ} (hfuel : ts.length ≤ fuel) :
    ∃ pairs tail, Pieces.ofTextWith fuel s = ⟨pairs, tail⟩ ∧ pairs.map Prod.snd = ts ∧
      (∀ pair ∈ pairs, AreSeparators pair.1) ∧ AreSeparators tail := by
  induction h generalizing fuel with
  | @separators s hs =>
    refine ⟨[], s, ?_, rfl, fun pair hpair => absurd hpair List.not_mem_nil, hs⟩
    cases fuel with
    | zero => rfl
    | succ fuel => rw [Pieces.ofTextWith, nextToken?_eq_none hs]
  | @token gap rest t ts hgap ht hrest ih =>
    obtain ⟨fuel, rfl⟩ := Nat.exists_eq_succ_of_ne_zero
      (by rw [List.length_cons] at hfuel; omega : fuel ≠ 0)
    obtain ⟨pairs, tail, hpieces, htokens, hgaps, htail⟩ := ih (Nat.le_of_succ_le_succ hfuel)
    have hnext := nextToken?_append hgap (Token.scan?_of_written ht hrest.endsToken)
    rw [← List.append_assoc] at hnext
    refine ⟨(gap, t) :: pairs, tail, ?_, by rw [List.map_cons, htokens], ?_, htail⟩
    · rw [Pieces.ofTextWith, hnext]
      simp only [hpieces]
    · exact List.forall_mem_cons.mpr ⟨hgap, hgaps⟩

/-- There is only one way to cut a text into tokens and separators. -/
theorem unique (h : WrittenAs ts s) (h' : WrittenAs ts' s) : ts = ts' := by
  obtain ⟨pairs, tail, hpieces, htokens, -, -⟩ := h.exists_pieces h.length_le
  obtain ⟨pairs', tail', hpieces', htokens', -, -⟩ := h'.exists_pieces h'.length_le
  rw [hpieces] at hpieces'
  cases hpieces'
  exact htokens.symm.trans htokens'

theorem written_of_mem (h : WrittenAs ts s) {t : Token} (ht : t ∈ ts) : t.Written := by
  induction h with
  | separators hs => exact absurd ht List.not_mem_nil
  | token hgap hfirst hrest ih =>
    obtain rfl | ht := List.mem_cons.mp ht
    · exact hfirst
    · exact ih ht

end WrittenAs

/-! ### Reading -/

theorem readTokens_of_written {pairs : List (List Char × Token)}
    (h : ∀ pair ∈ pairs, AreSeparators pair.1 ∧ pair.2.Written ∧ pair.2.position ≤ maxIndex) :
    readTokens pairs = .ok ((pairs.map Prod.snd).map Token.entry) := by
  induction pairs with
  | nil => rfl
  | cons pair rest ih =>
    obtain ⟨⟨hgap, hwritten, hposition⟩, hrest⟩ := List.forall_mem_cons.mp h
    obtain ⟨gap, t⟩ := pair
    rw [readTokens, Token.readToken_of_written hwritten hposition hgap, ih hrest]
    rfl

/-- What is read from tokens and separators: an error if there is no token, otherwise the arranged numbers. -/
theorem readPoint_of_writtenAs {ts : List Token} {s : List Char} (h : WrittenAs ts s)
    (hpositions : ∀ t ∈ ts, t.position ≤ maxIndex) :
    readPoint s = if ts = [] then .error .noTokens else arrange (ts.map Token.entry) := by
  obtain ⟨pairs, tail, hpieces, htokens, hgaps, htail⟩ := h.exists_pieces h.length_le
  have hread : readTokens pairs = .ok (ts.map Token.entry) := by
    rw [← htokens]
    refine readTokens_of_written ?_
    intro pair hpair
    have hmem : pair.2 ∈ ts := htokens ▸ List.mem_map_of_mem hpair
    exact ⟨hgaps pair hpair, h.written_of_mem hmem, hpositions _ hmem⟩
  rw [readPoint, Pieces.ofText, hpieces]
  simp only [hread, (checkGap_eq_ok_iff tail).mpr htail, List.isEmpty_iff, List.map_eq_nil_iff]

theorem exists_writtenAs_of_checkGap {s : List Char} (h : checkGap s = .ok ()) :
    ∃ ts, WrittenAs ts s ∧ ∀ t ∈ ts, t.position ≤ maxIndex :=
  ⟨[], .separators ((checkGap_eq_ok_iff s).mp h), fun _ ht => absurd ht List.not_mem_nil⟩

/-- What is read without a fault in a gap, an index or a number is made of tokens and separators. -/
theorem exists_writtenAs_of_pieces {fuel : ℕ} {s : List Char} {entries : List (ℕ × Float)}
    (hread : readTokens (Pieces.ofTextWith fuel s).tokens = .ok entries)
    (htail : checkGap (Pieces.ofTextWith fuel s).tail = .ok ()) :
    ∃ ts, WrittenAs ts s ∧ ∀ t ∈ ts, t.position ≤ maxIndex := by
  induction fuel generalizing s entries with
  | zero => exact exists_writtenAs_of_checkGap htail
  | succ fuel ih =>
    rw [Pieces.ofTextWith] at hread htail
    cases hnext : nextToken? s with
    | none =>
      rw [hnext] at htail
      exact exists_writtenAs_of_checkGap htail
    | some found =>
      obtain ⟨gap, t, rest⟩ := found
      rw [hnext] at hread htail
      simp only [readTokens] at hread
      split at hread
      · cases hread
      next entry hentry =>
      split at hread
      · cases hread
      next others hothers =>
      obtain ⟨ts, hts, hpositions⟩ := ih hothers htail
      obtain ⟨s', hscan⟩ := scan?_of_nextToken? hnext
      obtain ⟨hwritten, hposition, hgap⟩ := Token.written_of_readToken hscan hentry
      rw [← append_of_nextToken? hnext]
      exact ⟨t :: ts, .token hgap hwritten hts, List.forall_mem_cons.mpr ⟨hposition, hpositions⟩⟩

theorem exists_writtenAs {s : List Char} {v : List Float} (h : readPoint s = .ok v) :
    ∃ ts, WrittenAs ts s ∧ ∀ t ∈ ts, t.position ≤ maxIndex := by
  rw [readPoint] at h
  split at h
  · cases h
  next entries hread =>
  split at h
  · cases h
  split at h
  · cases h
  next htail =>
  exact exists_writtenAs_of_pieces hread htail

end DelayTuning
