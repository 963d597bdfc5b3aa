import DelayTuning.Log.Report
import DelayTuning.Proofs.Log.Grammar
import DelayTuning.Proofs.Log.Line
import DelayTuning.Proofs.Text.Lines
import DelayTuning.Run.Summary
import DelayTuning.Space.Delay

/-!
# Reading back the lines of runs

A run prints its best point as a line with a marker and one token for each coordinate. A log of such lines,
all of points with the same number of finite coordinates, is read without a failure, and what is read for a
coordinate is the double that its text with three places denotes.

## Main definitions

- `ReadsBackAs`: a coordinate with what is read from its text

## Main statements

- `exists_token_coordinate`: one token
- `exists_writtenAs_coordinateTokens`: the tokens of a point
- `parseLine?_bestLine`: one line
- `readText_lines`: a log
-/

namespace DelayTuning

/-- A coordinate and the double that is read from its text with three places. -/
def ReadsBackAs (x v : Float) : Prop :=
  numeralValue? (fixedChars 3 x) = some v

/-! ### Tokens -/

def coordinateText (i : Nat) (x : Float) : List Char :=
  '[' :: Decimal.digitChars i ++ ']' :: '=' :: fixedChars 3 x

/-- The text of a coordinate is that of a written token with its index, and the number of the token is the one
that is read from the text. -/
theorem exists_token_coordinate {x : Float} (hx : x.isFinite = true) (i : Nat) :
    ∃ t : Token, t.Written ∧ t.text = coordinateText i x ∧ t.position = i ∧ ReadsBackAs x t.number.nearest := by
  obtain ⟨negative, mantissa, exponent, hfinite⟩ := exists_ofFloat_eq_finite hx
  obtain ⟨numeral, hscan, hvalue, -, -⟩ := exists_scan?_fixedChars hfinite (by decide : 3 ≠ 0)
  have hscanned : Numeral.scan? (fixedChars 3 x) = some (numeral, []) := by
    rw [← hscan [] endsNumeral_nil, List.append_nil]
  have hwritten := Numeral.written_of_scan? hscanned hvalue
  have htext : numeral.text = fixedChars 3 x := by
    rw [← Numeral.text_append_of_scan? hscanned, List.append_nil]
  have hnoBlank : ∀ c ∈ [], isBlank c = true := List.forall_mem_nil _
  refine ⟨⟨Decimal.digitChars i, [], [], numeral⟩,
    ⟨⟨Nat.toDigits_ne_nil, fun _ => isDigit_of_mem_digitChars⟩, hnoBlank, hnoBlank, hwritten⟩, ?_, ?_, ?_⟩
  · simp only [Token.text, htext, coordinateText, List.cons_append, List.append_assoc, List.nil_append]
  · exact Nat.ofDigitChars_ten_toDigits
  · rw [ReadsBackAs, numeralValue?, hscanned]
    exact Numeral.value?_of_written hwritten

/-! ### The tokens of a point -/

/-- What follows the token of a coordinate. -/
def afterCoordinate (i : Nat) : List Float → List Char
  | [] => [',']
  | x :: rest => ',' :: ' ' :: coordinateTokens i (x :: rest)

theorem coordinateTokens_cons (i : Nat) (x : Float) (rest : List Float) :
    coordinateTokens i (x :: rest) = coordinateText i x ++ afterCoordinate (i + 1) rest := by
  cases rest <;> simp [coordinateTokens, coordinateText, afterCoordinate]

/-- The text of a point is made of one token for each coordinate, with its index and its number. -/
theorem exists_writtenAs_coordinateTokens {xs : List Float} (hne : xs ≠ [])
    (hfinite : ∀ x ∈ xs, x.isFinite = true) (i : Nat) {gap : List Char} (hgap : AreSeparators gap) :
    ∃ ts vs, WrittenAs ts (gap ++ coordinateTokens i xs) ∧
      ts.map Token.entry = (vs.zipIdx i).map Prod.swap ∧ List.Forall₂ ReadsBackAs xs vs := by
  induction xs generalizing i gap with
  | nil => exact absurd rfl hne
  | cons x rest ih =>
    obtain ⟨hx, hrest⟩ := List.forall_mem_cons.mp hfinite
    obtain ⟨t, ht, htext, hposition, hreads⟩ := exists_token_coordinate hx i
    -- the tokens of what follows the first one
    obtain ⟨ts, vs, hts, hentries, hall⟩ : ∃ ts vs, WrittenAs ts (afterCoordinate (i + 1) rest) ∧
        ts.map Token.entry = (vs.zipIdx (i + 1)).map Prod.swap ∧ List.Forall₂ ReadsBackAs rest vs := by
      cases rest with
      | nil => exact ⟨[], [], .separators (List.forall_mem_singleton.mpr (by decide)), rfl, .nil⟩
      | cons y others =>
        have hseparators : AreSeparators [',', ' '] :=
          List.forall_mem_cons.mpr ⟨rfl, List.forall_mem_singleton.mpr rfl⟩
        exact ih (List.cons_ne_nil _ _) hrest (i + 1) hseparators
    refine ⟨t :: ts, t.number.nearest :: vs, ?_, ?_, .cons hreads hall⟩
    · rw [coordinateTokens_cons, ← htext, ← List.append_assoc]
      exact .token hgap ht hts
    · rw [List.map_cons, hentries, Token.entry, hposition]
      rfl

theorem readPoint_coordinateTokens {xs : List Float} (hne : xs ≠ [])
    (hfinite : ∀ x ∈ xs, x.isFinite = true) (hword : xs.length ≤ UInt64.size) :
    ∃ vs, readPoint (coordinateTokens 0 xs) = .ok vs ∧ List.Forall₂ ReadsBackAs xs vs := by
  obtain ⟨ts, vs, hts, hentries, hall⟩ :=
    exists_writtenAs_coordinateTokens hne hfinite 0 (List.forall_mem_nil _ : AreSeparators [])
  have hpositions : ∀ t ∈ ts, t.position ≤ maxIndex := by
    intro t ht
    have hmem : t.entry ∈ vs.zipIdx.map Prod.swap := hentries ▸ List.mem_map_of_mem ht
    obtain ⟨⟨v, k⟩, hindexed, hswap⟩ := List.mem_map.mp hmem
    have hk : k < vs.length := List.snd_lt_of_mem_zipIdx hindexed
    have hposition : k = t.position := congrArg Prod.fst hswap
    rw [← hposition, maxIndex]
    rw [← hall.length_eq] at hk
    omega
  have hsome : ts ≠ [] := by
    rintro rfl
    cases hall with
    | nil => exact hne rfl
    | cons => cases hentries
  refine ⟨vs, ?_, hall⟩
  rw [List.nil_append] at hts
  rw [readPoint_of_writtenAs hts hpositions, if_neg hsome, hentries, arrange_zipIdx]

/-! ### Lines -/

theorem toFloats_finite {c : Candidate} (hne : c ≠ []) (hfinite : ∀ x ∈ c, Scalar.isFinite x = true) :
    c.toFloats ≠ [] ∧ ∀ x ∈ c.toFloats, x.isFinite = true := by
  refine ⟨by simpa [Candidate.toFloats] using hne, ?_⟩
  intro x hx
  obtain ⟨y, hy, rfl⟩ := List.mem_map.mp hx
  exact hfinite y hy

/-- The line of a point gives a point with as many coordinates, each read from its text. -/
theorem parseLine?_bestLine {c : Candidate} (hne : c ≠ [])
    (hfinite : ∀ x ∈ c, Scalar.isFinite x = true) (hword : c.length ≤ UInt64.size) :
    ∃ vs, MarkerParser.standard.parseLine? (bestLine c) = some (.ok vs) ∧
      List.Forall₂ ReadsBackAs c.toFloats vs := by
  obtain ⟨hne', hfinite'⟩ := toFloats_finite hne hfinite
  obtain ⟨vs, hpoint, hall⟩ := readPoint_coordinateTokens hne' hfinite'
    (by rwa [Candidate.toFloats, List.length_map])
  refine ⟨vs, ?_, hall⟩
  have hmarker : MarkerParser.standard.marker.toList = MarkerParser.bestMarker.toList := rfl
  rw [MarkerParser.parseLine?, MarkerParser.parseChars?, bestLine, String.toList_ofList, hmarker,
    afterMarker?_append, Option.map_some, hpoint]

theorem mem_coordinateText {x : Float} (hx : x.isFinite = true) {i : Nat} {c : Char}
    (hc : c ∈ coordinateText i x) : c ≠ '\n' := by
  obtain ⟨negative, mantissa, exponent, hfinite⟩ := exists_ofFloat_eq_finite hx
  obtain ⟨-, -, -, -, hchars⟩ := exists_scan?_fixedChars hfinite (by decide : 3 ≠ 0)
  simp only [coordinateText, List.cons_append, List.mem_cons, List.mem_append] at hc
  obtain rfl | hdigit | rfl | rfl | hmem := hc
  · decide
  · exact ne_of_isDigit (isDigit_of_mem_digitChars hdigit) (by decide)
  · decide
  · decide
  · obtain rfl | rfl | hdigit := hchars c hmem
    · decide
    · decide
    · exact ne_of_isDigit hdigit (by decide)

/-- The tokens of a point have no line feed in them and end with a comma. -/
theorem coordinateTokens_plain {xs : List Float} (hne : xs ≠ [])
    (hfinite : ∀ x ∈ xs, x.isFinite = true) (i : Nat) :
    '\n' ∉ coordinateTokens i xs ∧ ∃ init, coordinateTokens i xs = init ++ [','] := by
  induction xs generalizing i with
  | nil => exact absurd rfl hne
  | cons x rest ih =>
    have hx : '\n' ∉ coordinateText i x := fun hmem =>
      mem_coordinateText (hfinite x List.mem_cons_self) hmem rfl
    rw [coordinateTokens_cons]
    cases rest with
    | nil =>
      refine ⟨?_, coordinateText i x, rfl⟩
      rw [List.mem_append, not_or]
      exact ⟨hx, by simp [afterCoordinate]⟩
    | cons y others =>
      obtain ⟨hplain, init, hinit⟩ := ih (List.cons_ne_nil _ _)
        (fun z hz => hfinite z (List.mem_cons_of_mem x hz)) (i + 1)
      refine ⟨?_, coordinateText i x ++ ',' :: ' ' :: init, ?_⟩
      · simp only [afterCoordinate, List.mem_append, List.mem_cons, not_or]
        exact ⟨hx, by decide, by decide, hplain⟩
      · simp [afterCoordinate, hinit]

theorem bestLine_plain {c : Candidate} (hne : c ≠ [])
    (hfinite : ∀ x ∈ c, Scalar.isFinite x = true) :
    IsPlainLine '\n' '\r' (bestLine c).toList ∧ (bestLine c).toList ≠ [] := by
  obtain ⟨hne', hfinite'⟩ := toFloats_finite hne hfinite
  obtain ⟨hplain, init, hinit⟩ := coordinateTokens_plain hne' hfinite' 0
  have hmarker : '\n' ∉ MarkerParser.bestMarker.toList := by decide
  rw [bestLine, String.toList_ofList]
  refine ⟨⟨?_, ?_⟩, ?_⟩
  · rw [List.mem_append, not_or]
    exact ⟨hmarker, hplain⟩
  · rw [hinit, ← List.append_assoc, List.getLast?_concat]
    decide
  · rw [hinit]
    simp

/-! ### Logs -/

theorem exists_forall₂ {β γ : Type} {R : β → γ → Prop} {xs : List β} (h : ∀ x ∈ xs, ∃ y, R x y) :
    ∃ ys, List.Forall₂ R xs ys := by
  induction xs with
  | nil => exact ⟨[], .nil⟩
  | cons x rest ih =>
    obtain ⟨y, hy⟩ := h x List.mem_cons_self
    obtain ⟨ys, hys⟩ := ih fun z hz => h z (List.mem_cons_of_mem x hz)
    exact ⟨y :: ys, .cons hy hys⟩

/-- A report with the points of more lines, all of the length that counts. -/
theorem readLines_of_parsed {p : MarkerParser} {source : String} {d : Nat} {lines : List (List Char)}
    {vectors : List (List Float)}
    (h : List.Forall₂ (fun line vs => p.parseChars? line = some (.ok vs) ∧ vs.length = d) lines vectors)
    {r : LogReport} (hr : ∀ e ∈ r.dimension?, e = d) (number : Nat) :
    p.readLines source r number lines =
      ⟨r.points ++ (vectors.zipIdx number).map fun (vs, n) => ⟨source, n, vs⟩, r.failures⟩ := by
  induction h generalizing r number with
  | nil => simp [MarkerParser.readLines]
  | @cons line vs lines vectors hline _ ih =>
    obtain ⟨hparse, hlength⟩ := hline
    have haccept : r.accept ⟨source, number, vs⟩ =
        ⟨r.points ++ [⟨source, number, vs⟩], r.failures⟩ := by
      rw [LogReport.accept]
      split
      · next e he => rw [if_pos (hlength.trans (hr e he).symm)]
      · rfl
    have hdimension : ∀ e ∈ (r.accept ⟨source, number, vs⟩).dimension?, e = d := by
      rw [haccept]
      intro e he
      cases hpoints : r.points with
      | nil =>
        simp only [LogReport.dimension?, hpoints, List.nil_append, List.head?_cons, Option.map_some,
          Option.mem_some_iff] at he
        omega
      | cons first others =>
        refine hr e ?_
        simp only [LogReport.dimension?, hpoints, List.cons_append, List.head?_cons] at he ⊢
        exact he
    have hread : p.readLine source r number line = r.accept ⟨source, number, vs⟩ := by
      simp only [MarkerParser.readLine, hparse]
    rw [MarkerParser.readLines, hread, ih hdimension, haccept]
    simp [List.zipIdx_cons]

/-- The lines of a text in which plain lines end with a line feed or are separated by one. -/
theorem textLines_of_plain {lines : List String}
    (h : ∀ line ∈ lines, IsPlainLine '\n' '\r' line.toList ∧ line.toList ≠ []) {text : String}
    (htext : text = String.join (lines.map (· ++ "\n")) ∨ text = "\n".intercalate lines) :
    textLines text.toList = lines.map String.toList := by
  obtain rfl | rfl := htext
  · exact textLines_join fun line hline => (h line hline).1
  · rw [String.toList_intercalate]
    exact splitLines_intercalate (List.forall_mem_map.mpr h)

/-- The lines of runs, each with what is read from it. -/
theorem exists_parsed_lines {summaries : List RunSummary} {d : Nat} (hpos : 0 < d)
    (hword : d ≤ UInt64.size) (hlength : ∀ s ∈ summaries, s.outcome.best.candidate.length = d)
    (hfinite : ∀ s ∈ summaries, ∀ x ∈ s.outcome.best.candidate, Scalar.isFinite x = true) :
    ∃ vectors : List (List Float),
      List.Forall₂ (fun s vs => MarkerParser.standard.parseLine? s.line = some (.ok vs) ∧
        vs.length = d ∧ List.Forall₂ ReadsBackAs s.outcome.best.candidate.toFloats vs)
        summaries vectors := by
  refine exists_forall₂ ?_
  intro s hs
  have hcount := hlength s hs
  obtain ⟨vs, hparse, hreads⟩ := parseLine?_bestLine
    (List.ne_nil_of_length_pos (hcount.symm ▸ hpos)) (hfinite s hs) (hcount.le.trans hword)
  refine ⟨vs, hparse, ?_, hreads⟩
  rw [← hreads.length_eq, Candidate.toFloats, List.length_map, hcount]

/-- The lines of runs whose best points have the same number of coordinates, all finite, are read without a
failure: the points of the report are those of the lines, in order, and each coordinate is what its text
denotes. The lines may end with a line feed or be separated by one. Indices are machine words, so there are
at most `2 ^ 64` coordinates. -/
theorem readText_lines {summaries : List RunSummary} {d : Nat} (hpos : 0 < d) (hword : d ≤ UInt64.size)
    (hlength : ∀ s ∈ summaries, s.outcome.best.candidate.length = d)
    (hfinite : ∀ s ∈ summaries, ∀ x ∈ s.outcome.best.candidate, Scalar.isFinite x = true) :
    ∃ vectors : List (List Float),
      List.Forall₂ (fun s vs => MarkerParser.standard.parseLine? s.line = some (.ok vs) ∧
        vs.length = d ∧ List.Forall₂ ReadsBackAs s.outcome.best.candidate.toFloats vs)
        summaries vectors ∧
      ∀ (source text : String),
        text = String.join (summaries.map fun s => s.line ++ "\n") ∨
          text = "\n".intercalate (summaries.map RunSummary.line) →
        MarkerParser.standard.readText source text =
          ⟨(vectors.zipIdx 1).map fun (vs, n) => ⟨source, n, vs⟩, []⟩ := by
  obtain ⟨vectors, hall⟩ := exists_parsed_lines hpos hword hlength hfinite
  refine ⟨vectors, hall, ?_⟩
  intro source text htext
  have hplain : ∀ line ∈ summaries.map RunSummary.line,
      IsPlainLine '\n' '\r' line.toList ∧ line.toList ≠ [] := by
    refine List.forall_mem_map.mpr ?_
    intro s hs
    exact bestLine_plain (List.ne_nil_of_length_pos ((hlength s hs).symm ▸ hpos)) (hfinite s hs)
  have hlines : textLines text.toList = (summaries.map RunSummary.line).map String.toList := by
    refine textLines_of_plain hplain ?_
    rwa [List.map_map]
  have hparsed : List.Forall₂ (fun line vs => MarkerParser.standard.parseChars? line = some (.ok vs) ∧
      vs.length = d) ((summaries.map RunSummary.line).map String.toList) vectors := by
    rw [List.map_map]
    exact List.forall₂_map_left_iff.mpr (hall.imp fun s vs h => ⟨h.1, h.2.1⟩)
  rw [MarkerParser.readText, hlines, readLines_of_parsed hparsed (by intro e he; cases he)]
  rfl

/-- A run with a given best point. -/
def summaryOf (c : Candidate) : RunSummary where
  id := .ofBytes (List.replicate 16 0)
  started := .epoch
  finished := .epoch
  outcome := ⟨"run", 1, 0, ⟨c, 1.0⟩, [1.0]⟩

/-- The log of the best points of earlier searches is read back. -/
theorem expertSeeds_readText_lines :
    ∃ vectors : List (List Float), vectors.length = 4 ∧
      MarkerParser.standard.readText "log"
          (String.join ((expertSeeds.map summaryOf).map fun s => s.line ++ "\n")) =
        ⟨(vectors.zipIdx 1).map fun (vs, n) => ⟨"log", n, vs⟩, []⟩ := by
  obtain ⟨vectors, hall, htext⟩ := @readText_lines (expertSeeds.map summaryOf) 10
    (by decide) (by decide) (by decide +kernel) (by decide +kernel)
  exact ⟨vectors, hall.length_eq.symm, htext "log" _ (Or.inl rfl)⟩

end DelayTuning
