import DelayTuning.Log.Line
import Mathlib

/-!
# The pieces of a line

Cutting a text into gaps and tokens loses nothing: the pieces, put together again, are the text. So whatever a
fault quotes from a marker line stands in this line.

## Main definitions

- `LineFault.QuotesFrom`: a fault that quotes nothing but what stands in a line

## Main statements

- `Numeral.text_append_of_scan?`, `Token.text_append_of_scan?`: what a scan takes and what it leaves are the text
- `Pieces.text_ofText`: the pieces of a text put together
- `quotes_of_readPoint`, `quotes_of_parseChars?`: what the faults of a line quote
-/

namespace DelayTuning

/-! ### Scanning -/

namespace Numeral

theorem scanSign_append (s : List Char) : (scanSign s).1 ++ (scanSign s).2 = s := by
  cases s with
  | nil => rfl
  | cons c rest =>
    rw [scanSign]
    split
    · rfl
    · rfl

theorem fst_append_snd_scanDigits (s : List Char) : (scanDigits s).1 ++ (scanDigits s).2 = s :=
  List.takeWhile_append_dropWhile

/-- The text of an exponent part, empty if there is none. -/
def exponentText : Option ExponentPart → List Char
  | some e => e.text
  | none => []

theorem text_eq (n : Numeral) :
    n.text = n.sign ++ n.whole ++ n.point ++ n.fraction ++ exponentText n.exponent := by
  obtain ⟨sign, whole, point, fraction, _ | e⟩ := n
  · rfl
  · rfl

theorem exponentText_append_scanExponent (s : List Char) :
    exponentText (scanExponent s).1 ++ (scanExponent s).2 = s := by
  cases s with
  | nil => rfl
  | cons c rest =>
    rw [scanExponent]
    split
    · have hsign := scanSign_append rest
      have hdigits := fst_append_snd_scanDigits (scanSign rest).2
      simp only
      split
      · rfl
      · simp only [exponentText, ExponentPart.text, List.cons_append, List.append_assoc, hdigits, hsign]
    · rfl

theorem append_of_scanDigitsAndPoint? {s whole point fraction rest : List Char}
    (h : scanDigitsAndPoint? s = some ((whole, point, fraction), rest)) :
    whole ++ point ++ fraction ++ rest = s := by
  have hwhole := fst_append_snd_scanDigits s
  rw [scanDigitsAndPoint?] at h
  simp only at h
  split at h
  · next afterPoint hafter =>
    have hfraction := fst_append_snd_scanDigits afterPoint
    split at h
    · cases h
    · cases h
      rw [hafter] at hwhole
      simp only [List.append_assoc, hfraction]
      exact hwhole
  · split at h
    · cases h
    · cases h
      simpa using hwhole

/-- A numeral and what follows it are the text that was scanned. -/
theorem text_append_of_scan? {s rest : List Char} {n : Numeral} (h : scan? s = some (n, rest)) :
    n.text ++ rest = s := by
  have hsign := scanSign_append s
  rw [scan?] at h
  simp only at h
  split at h
  · next whole point fraction afterDigits hscan =>
    have hdigits := append_of_scanDigitsAndPoint? hscan
    have hexponent := exponentText_append_scanExponent afterDigits
    cases h
    rw [text_eq]
    simp only [List.append_assoc] at hdigits ⊢
    rw [hexponent, hdigits, hsign]
  · cases h

end Numeral

namespace Token

theorem eq_cons_of_expect? {c : Char} {s rest : List Char} (h : expect? c s = some rest) :
    s = c :: rest := by
  cases s with
  | nil => cases h
  | cons d tail =>
    rw [expect?] at h
    split at h
    · next heq =>
      cases h
      rw [heq]
    · cases h

theorem append_of_scanIndex? {s index rest : List Char} (h : scanIndex? s = some (index, rest)) :
    '[' :: index ++ ']' :: rest = s := by
  rw [scanIndex?] at h
  split at h
  · cases h
  next inside hbracket =>
  have hdigits := Numeral.fst_append_snd_scanDigits inside
  simp only at h
  split at h
  · cases h
  obtain ⟨afterBracket, hafter, hfound⟩ := Option.map_eq_some_iff.mp h
  cases hfound
  rw [eq_cons_of_expect? hbracket, List.cons_append, ← eq_cons_of_expect? hafter, hdigits]

/-- A token and what follows it are the text that was scanned. -/
theorem text_append_of_scan? {s rest : List Char} {t : Token} (h : scan? s = some (t, rest)) :
    t.text ++ rest = s := by
  rw [scan?] at h
  split at h
  · cases h
  next index afterBracket hindex =>
  split at h
  · cases h
  next afterEquals hequals =>
  split at h
  · cases h
  next number afterNumber hnumber =>
  cases h
  have hbefore := List.takeWhile_append_dropWhile (p := isBlank) (l := afterBracket)
  have hafter := List.takeWhile_append_dropWhile (p := isBlank) (l := afterEquals)
  rw [eq_cons_of_expect? hequals] at hbefore
  rw [← Numeral.text_append_of_scan? hnumber] at hafter
  simp only [text, List.append_assoc, List.cons_append]
  rw [hafter, hbefore]
  exact append_of_scanIndex? hindex

end Token

theorem append_of_nextToken? {s gap rest : List Char} {token : Token}
    (h : nextToken? s = some (gap, token, rest)) : gap ++ token.text ++ rest = s := by
  induction s generalizing gap with
  | nil => cases h
  | cons c tail ih =>
    rw [nextToken?] at h
    split at h
    · next found after hscan =>
      cases h
      exact Token.text_append_of_scan? hscan
    · obtain ⟨⟨gap', token', rest'⟩, hnext, hfound⟩ := Option.map_eq_some_iff.mp h
      cases hfound
      rw [List.cons_append, List.cons_append, ih hnext]

namespace Pieces

theorem text_ofTextWith (fuel : ℕ) (s : List Char) : (ofTextWith fuel s).text = s := by
  induction fuel generalizing s with
  | zero => rfl
  | succ fuel ih =>
    rw [ofTextWith]
    split
    · rfl
    · next gap token rest hnext =>
      have hrest := ih rest
      rw [text] at hrest
      rw [text, List.map_cons, List.flatten_cons, List.append_assoc, hrest]
      exact append_of_nextToken? hnext

/-- The pieces of a text, put together again, are the text. -/
theorem text_ofText (s : List Char) : (ofText s).text = s :=
  text_ofTextWith s.length s

theorem subset_text_of_mem {p : Pieces} {gap : List Char} {token : Token} (h : (gap, token) ∈ p.tokens) :
    gap ++ token.text ⊆ p.text := by
  intro c hc
  exact List.mem_append_left _ (List.mem_flatten_of_mem (List.mem_map.mpr ⟨_, h, rfl⟩) hc)

end Pieces

/-! ### What faults quote -/

/-- All characters that a fault quotes stand in a line. -/
def LineFault.QuotesFrom (line : List Char) (fault : LineFault) : Prop :=
  ∀ text, fault = .invalidNumber text → text.toList ⊆ line

namespace LineFault.QuotesFrom

variable {line more : List Char} {fault : LineFault}

theorem mono (h : fault.QuotesFrom line) (hsubset : line ⊆ more) : fault.QuotesFrom more :=
  fun text htext _ hc => hsubset (h text htext hc)

theorem invalidNumber (quoted : List Char) :
    (LineFault.invalidNumber (String.ofList quoted)).QuotesFrom quoted := by
  rintro text htext
  cases htext
  rw [String.toList_ofList]
  exact List.Subset.refl _

end LineFault.QuotesFrom

theorem quotes_of_checkGap {gap : List Char} {fault : LineFault} (h : checkGap gap = .error fault) :
    fault.QuotesFrom gap := by
  have htrim : trimSeparators gap ⊆ gap := by
    intro c hc
    rw [trimSeparators, List.mem_reverse] at hc
    have hc := (List.dropWhile_sublist _).subset hc
    rw [List.mem_reverse] at hc
    exact (List.dropWhile_sublist _).subset hc
  rw [checkGap] at h
  split at h
  · cases h
  · cases h
    exact (LineFault.QuotesFrom.invalidNumber _).mono htrim

theorem quotes_of_readIndex {digits : List Char} {fault : LineFault}
    (h : readIndex digits = .error fault) : fault.QuotesFrom digits := by
  rw [readIndex] at h
  split at h
  · split at h
    · cases h
    · cases h
      exact .invalidNumber digits
  · cases h
    exact .invalidNumber digits

theorem quotes_of_readNumber {n : Numeral} {fault : LineFault} (h : readNumber n = .error fault) :
    fault.QuotesFrom n.text := by
  rw [readNumber] at h
  split at h
  · cases h
  · cases h
    exact .invalidNumber n.text

theorem quotes_of_readToken {gap : List Char} {token : Token} {fault : LineFault}
    (h : readToken gap token = .error fault) : fault.QuotesFrom (gap ++ token.text) := by
  have hindex : token.index ⊆ gap ++ token.text := by
    intro c hc
    simp [Token.text, hc]
  have hnumber : token.number.text ⊆ gap ++ token.text := by
    intro c hc
    simp [Token.text, hc]
  rw [readToken] at h
  split at h
  · next hgap =>
    cases h
    exact (quotes_of_checkGap hgap).mono (List.subset_append_left _ _)
  split at h
  · next hread =>
    cases h
    exact (quotes_of_readIndex hread).mono hindex
  split at h
  · next hread =>
    cases h
    exact (quotes_of_readNumber hread).mono hnumber
  · cases h

theorem quotes_of_readTokens {tokens : List (List Char × Token)} {line : List Char}
    (hline : ∀ gap token, (gap, token) ∈ tokens → gap ++ token.text ⊆ line) {fault : LineFault}
    (h : readTokens tokens = .error fault) : fault.QuotesFrom line := by
  induction tokens with
  | nil => cases h
  | cons first rest ih =>
    obtain ⟨gap, token⟩ := first
    rw [readTokens] at h
    split at h
    · next hread =>
      cases h
      exact (quotes_of_readToken hread).mono (hline gap token List.mem_cons_self)
    split at h
    · next hread =>
      cases h
      exact ih (fun gap token hmem => hline gap token (List.mem_cons_of_mem _ hmem)) hread
    · cases h

theorem quotes_of_arrange {entries : List (ℕ × Float)} {fault : LineFault}
    (h : arrange entries = .error fault) (line : List Char) : fault.QuotesFrom line := by
  rintro text rfl
  rw [arrange] at h
  split at h
  · cases h
  split at h
  · cases h
  · cases h

theorem quotes_of_readPoint {s : List Char} {fault : LineFault} (h : readPoint s = .error fault) :
    fault.QuotesFrom s := by
  have htext := Pieces.text_ofText s
  rw [readPoint] at h
  split at h
  · next hread =>
    cases h
    refine quotes_of_readTokens ?_ hread
    intro gap token hmem
    rw [← htext]
    exact Pieces.subset_text_of_mem hmem
  split at h
  · cases h
    intro text hnone
    cases hnone
  split at h
  · next hgap =>
    cases h
    have hsubset : (Pieces.ofText s).tail ⊆ (Pieces.ofText s).text := List.subset_append_right _ _
    rw [htext] at hsubset
    exact (quotes_of_checkGap hgap).mono hsubset
  · exact quotes_of_arrange h s

theorem suffix_of_afterMarker? {marker line tail : List Char} (h : afterMarker? marker line = some tail) :
    tail <:+ line := by
  induction line with
  | nil =>
    rw [afterMarker?] at h
    split at h
    · cases h
      exact List.suffix_refl _
    · cases h
  | cons c rest ih =>
    rw [afterMarker?] at h
    split at h
    · cases h
      exact List.drop_suffix _ _
    · exact (ih h).trans (List.suffix_cons c rest)

/-- What the fault of a marker line quotes stands in this line. -/
theorem quotes_of_parseChars? {p : MarkerParser} {line : List Char} {fault : LineFault}
    (h : p.parseChars? line = some (.error fault)) : fault.QuotesFrom line := by
  obtain ⟨tail, hafter, hread⟩ := Option.map_eq_some_iff.mp h
  exact (quotes_of_readPoint hread).mono (suffix_of_afterMarker? hafter).subset

end DelayTuning
