import DelayTuning.Proofs.Log.Arrangement
import DelayTuning.Proofs.Log.Diagnostics
import DelayTuning.Proofs.Log.Grammar

/-!
# The accepted marker lines

A line gives a point exactly if its marker is followed by tokens and separators and the indices of the tokens are
`0, 1, …` in some order. What a line of tokens and separators gives, a point or a fault, depends on the indices
and numbers of its tokens and not on their order. The numbers are the doubles nearest to the texts, so they are
never a NaN, but a text can denote a number beyond all doubles, and then an infinity is accepted.

## Main definitions

- `FollowsFirst`: the text behind the first occurrence of a marker
- `AreCoordinates`: tokens with the indices `0, 1, …`
- `IsPointOf`: the point of tokens

## Main statements

- `parseLine?_eq_ok_iff_grammar`: the accepted lines and their points
- `parseLine?_gives`: what a line gives depends on the entries of its tokens only
- `Assembles.isFinite_iff`: when the values of a report are finite
-/

namespace DelayTuning

/-! ### Markers -/

/-- The text behind the first occurrence of a marker in a line. -/
def FollowsFirst (marker line tail : List Char) : Prop :=
  ∃ front, line = front ++ marker ++ tail ∧
    ∀ front' tail', line = front' ++ marker ++ tail' → front.length ≤ front'.length

theorem followsFirst_of_afterMarker? {marker line tail : List Char}
    (h : afterMarker? marker line = some tail) : FollowsFirst marker line tail := by
  induction line with
  | nil =>
    rw [afterMarker?] at h
    split at h
    · next hempty =>
      cases h
      rw [List.isEmpty_iff.mp hempty]
      exact ⟨[], rfl, fun _ _ _ => Nat.zero_le _⟩
    · cases h
  | cons c rest ih =>
    rw [afterMarker?] at h
    split at h
    · next hprefix =>
      cases h
      obtain ⟨tail, htail⟩ := List.isPrefixOf_iff_prefix.mp hprefix
      refine ⟨[], ?_, fun _ _ _ => Nat.zero_le _⟩
      rw [← htail, List.drop_left, List.nil_append]
    · next hprefix =>
      obtain ⟨front, rfl, hleast⟩ := ih h
      refine ⟨c :: front, rfl, ?_⟩
      intro front' tail' hline
      cases front' with
      | nil =>
        refine absurd (List.isPrefixOf_iff_prefix.mpr ?_) hprefix
        rw [hline, List.nil_append]
        exact List.prefix_append marker tail'
      | cons d front' =>
        rw [List.cons_append, List.cons_append, List.cons.injEq] at hline
        exact Nat.succ_le_succ (hleast front' tail' hline.2)

theorem FollowsFirst.unique {marker line tail tail' : List Char} (h : FollowsFirst marker line tail)
    (h' : FollowsFirst marker line tail') : tail = tail' := by
  obtain ⟨front, hline, hleast⟩ := h
  obtain ⟨front', hline', hleast'⟩ := h'
  have hlength := le_antisymm (hleast front' tail' hline') (hleast' front tail hline)
  rw [hline, List.append_assoc, List.append_assoc] at hline'
  exact List.append_cancel_left (List.append_inj hline' hlength).2

theorem afterMarker?_eq_some_iff {marker line tail : List Char} :
    afterMarker? marker line = some tail ↔ FollowsFirst marker line tail := by
  refine ⟨followsFirst_of_afterMarker?, ?_⟩
  intro h
  obtain ⟨front, hline, -⟩ := id h
  have hinfix : marker <:+: line := ⟨front, tail, hline.symm⟩
  obtain ⟨tail', htail'⟩ := Option.isSome_iff_exists.mp
    ((MarkerParser.isSome_afterMarker?_iff marker line).mpr hinfix)
  rw [htail', (followsFirst_of_afterMarker? htail').unique h]

/-! ### Points of tokens -/

/-- The indices of the tokens are machine words and `0, 1, …` in some order, and there is at least one. -/
structure AreCoordinates (ts : List Token) : Prop where
  ne_nil : ts ≠ []
  position_lt : ∀ t ∈ ts, t.position < 2 ^ 64
  positions_perm : (ts.map Token.position).Perm (List.range ts.length)

/-- A point has one value for each token, and each value is the double nearest to the text of the token with its
index. -/
structure IsPointOf (ts : List Token) (v : List Float) : Prop where
  length_eq : v.length = ts.length
  nearest : ∀ t ∈ ts, ∃ x, v[t.position]? = some x ∧ RoundsToNearest t.number.exact x

theorem le_maxIndex_iff {n : ℕ} : n ≤ maxIndex ↔ n < 2 ^ 64 :=
  Nat.lt_succ_iff.symm

/-- What is read from tokens and separators. -/
theorem readPoint_gives {ts : List Token} {s : List Char} (h : WrittenAs ts s)
    (hpositions : ∀ t ∈ ts, t.position < 2 ^ 64) :
    Gives (ts.map Token.entry : List (ℕ × Float)) (readPoint s) := by
  rw [readPoint_of_writtenAs h fun t ht => le_maxIndex_iff.mpr (hpositions t ht)]
  split
  · next hnil =>
    rw [hnil]
    exact .nothing rfl
  · next hne =>
    apply arrange_gives
    rwa [Ne, List.map_eq_nil_iff]

theorem indices_entries (ts : List Token) :
    indices (ts.map Token.entry : List (ℕ × Float)) = (ts.map Token.position : List ℕ) := by
  rw [indices_coe, List.map_map]
  rfl

/-- The point that is read from tokens. -/
theorem isPointOf_of_gives {ts : List Token} {v : List Float} (hpositions : ∀ t ∈ ts, t.position < 2 ^ 64)
    (h : Gives (ts.map Token.entry : List (ℕ × Float)) (.ok v)) : AreCoordinates ts ∧ IsPointOf ts v := by
  cases h with
  | point hne hentries =>
    have hperm := Multiset.coe_eq_coe.mp hentries
    have hlength : v.length = ts.length := by
      have := hperm.length_eq
      rw [List.length_map, List.length_map, List.length_zipIdx] at this
      exact this.symm
    refine ⟨⟨?_, hpositions, ?_⟩, hlength, ?_⟩
    · rintro rfl
      exact hne (List.length_eq_zero_iff.mp hlength)
    · rw [← Multiset.coe_eq_coe, ← indices_entries, hentries, indices_zipIdx, hlength, Multiset.coe_range]
    · intro t ht
      have hmem : t.entry ∈ v.zipIdx.map Prod.swap := hperm.mem_iff.mp (List.mem_map_of_mem ht)
      exact ⟨t.number.nearest, mem_zipIdx_swap.mp hmem, t.number.roundsToNearest_nearest⟩

/-- Tokens with the indices `0, 1, …` give a point. -/
theorem exists_point_of_gives {ts : List Token} (hts : AreCoordinates ts)
    {r : Except LineFault (List Float)} (h : Gives (ts.map Token.entry : List (ℕ × Float)) r) :
    ∃ v, r = .ok v := by
  have hindices : indices (ts.map Token.entry : List (ℕ × Float)) = Multiset.range ts.length := by
    rw [indices_entries, Multiset.coe_eq_coe.mpr hts.positions_perm, Multiset.coe_range]
  cases h with
  | nothing hempty =>
    have hnil := Multiset.coe_eq_zero _ |>.mp hempty
    exact absurd (List.map_eq_nil_iff.mp hnil) hts.ne_nil
  | repeated hleast =>
    refine absurd ?_ (not_nodup_of_repeated hleast.1)
    rw [hindices]
    exact Multiset.nodup_range _
  | missing _ hother =>
    refine absurd ?_ hother
    rw [hindices, Multiset.coe_card, List.length_map]
  | @point v _ _ => exact ⟨v, rfl⟩

/-- The texts that give a point. -/
theorem exists_readPoint_eq_ok_iff (s : List Char) :
    (∃ v, readPoint s = .ok v) ↔ ∃ ts, WrittenAs ts s ∧ AreCoordinates ts := by
  constructor
  · rintro ⟨v, hv⟩
    obtain ⟨ts, hts, hpositions⟩ := exists_writtenAs hv
    have hlt : ∀ t ∈ ts, t.position < 2 ^ 64 := fun t ht => le_maxIndex_iff.mp (hpositions t ht)
    have hgives := readPoint_gives hts hlt
    rw [hv] at hgives
    exact ⟨ts, hts, (isPointOf_of_gives hlt hgives).1⟩
  · rintro ⟨ts, hts, hcoordinates⟩
    exact exists_point_of_gives hcoordinates (readPoint_gives hts hcoordinates.position_lt)

/-- The point of a text has the numbers of its tokens. -/
theorem isPointOf_of_readPoint {ts : List Token} {s : List Char} {v : List Float} (h : WrittenAs ts s)
    (hv : readPoint s = .ok v) : AreCoordinates ts ∧ IsPointOf ts v := by
  obtain ⟨ts', hts', hpositions⟩ := exists_writtenAs hv
  obtain rfl := h.unique hts'
  have hlt : ∀ t ∈ ts, t.position < 2 ^ 64 := fun t ht => le_maxIndex_iff.mp (hpositions t ht)
  have hgives := readPoint_gives h hlt
  rw [hv] at hgives
  exact isPointOf_of_gives hlt hgives

/-- Each value of a point is the double nearest to the text of a token. -/
theorem IsPointOf.exists_token {ts : List Token} {v : List Float} (h : IsPointOf ts v)
    (hts : AreCoordinates ts) {x : Float} (hx : x ∈ v) : ∃ t ∈ ts, RoundsToNearest t.number.exact x := by
  obtain ⟨i, hi, rfl⟩ := List.mem_iff_getElem.mp hx
  have hposition : i ∈ ts.map Token.position := by
    rw [hts.positions_perm.mem_iff, List.mem_range, ← h.length_eq]
    exact hi
  obtain ⟨t, ht, rfl⟩ := List.mem_map.mp hposition
  obtain ⟨y, hy, hnearest⟩ := h.nearest t ht
  rw [List.getElem?_eq_getElem hi, Option.some_inj] at hy
  exact ⟨t, ht, hy ▸ hnearest⟩

namespace MarkerParser

variable {p : MarkerParser}

/-! ### Lines -/

theorem parseLine?_of_followsFirst {line : String} {tail : List Char}
    (h : FollowsFirst p.marker.toList line.toList tail) : p.parseLine? line = some (readPoint tail) := by
  rw [parseLine?, parseChars?, afterMarker?_eq_some_iff.mpr h, Option.map_some]

theorem exists_followsFirst_of_parseLine? {line : String} {r : Except LineFault (List Float)}
    (h : p.parseLine? line = some r) :
    ∃ tail, FollowsFirst p.marker.toList line.toList tail ∧ readPoint tail = r := by
  obtain ⟨tail, hafter, hread⟩ := Option.map_eq_some_iff.mp h
  exact ⟨tail, afterMarker?_eq_some_iff.mp hafter, hread⟩

/-- A line has no result exactly if it does not contain the marker. It gives a point exactly if the text behind
the first occurrence of the marker is made of tokens, at least one, and separators, with the indices `0, 1, …` in
some order; and then the point has the numbers of the tokens by their indices. -/
theorem parseLine?_eq_ok_iff_grammar (p : MarkerParser) (line : String) :
    (p.parseLine? line = none ↔ ¬ p.marker.toList <:+: line.toList) ∧
    ((∃ v, p.parseLine? line = some (.ok v)) ↔ ∃ tail ts,
      FollowsFirst p.marker.toList line.toList tail ∧ WrittenAs ts tail ∧ AreCoordinates ts) ∧
    ∀ v tail ts, p.parseLine? line = some (.ok v) → FollowsFirst p.marker.toList line.toList tail →
      WrittenAs ts tail → AreCoordinates ts ∧ IsPointOf ts v := by
  refine ⟨?_, ⟨?_, ?_⟩, ?_⟩
  · rw [parseLine?, parseChars?, Option.map_eq_none_iff, ← isSome_afterMarker?_iff,
      Bool.not_eq_true, Option.isSome_eq_false_iff, Option.isNone_iff_eq_none]
  · rintro ⟨v, hv⟩
    obtain ⟨tail, hfirst, hread⟩ := exists_followsFirst_of_parseLine? hv
    obtain ⟨ts, hts, hcoordinates⟩ := (exists_readPoint_eq_ok_iff tail).mp ⟨v, hread⟩
    exact ⟨tail, ts, hfirst, hts, hcoordinates⟩
  · rintro ⟨tail, ts, hfirst, hts, hcoordinates⟩
    obtain ⟨v, hread⟩ := (exists_readPoint_eq_ok_iff tail).mpr ⟨ts, hts, hcoordinates⟩
    exact ⟨v, by rw [parseLine?_of_followsFirst hfirst, hread]⟩
  · intro v tail ts hv hfirst hts
    rw [parseLine?_of_followsFirst hfirst, Option.some_inj] at hv
    exact isPointOf_of_readPoint hts hv

/-- A line with tokens behind the marker, each after a separator. -/
def separatedLine (separator : List Char) (ts : List Token) : String :=
  String.ofList (bestMarker.toList ++ ts.flatMap fun t => separator ++ t.text)

theorem areSeparators_singleton {c : Char} (h : isSeparator c = true) : AreSeparators [c] :=
  List.forall_mem_singleton.mpr h

theorem writtenAs_separatedLine {separator : List Char} (hseparator : AreSeparators separator) {ts : List Token}
    (hts : ∀ t ∈ ts, t.Written) :
    WrittenAs ts (ts.flatMap fun t => separator ++ t.text) := by
  induction ts with
  | nil => exact .separators fun c hc => absurd hc List.not_mem_nil
  | cons t rest ih =>
    obtain ⟨ht, hrest⟩ := List.forall_mem_cons.mp hts
    exact .token hseparator ht (ih hrest)

theorem followsFirst_separatedLine (separator : List Char) (ts : List Token) :
    FollowsFirst standard.marker.toList (separatedLine separator ts).toList
      (ts.flatMap fun t => separator ++ t.text) :=
  ⟨[], String.toList_ofList, fun _ _ _ => Nat.zero_le _⟩

/-- The tokens `[1] = -1e+2` and `[0]=.5`. -/
def pairTokens : List Token :=
  [⟨['1'], [' '], [' '], ⟨['-'], ['1'], [], [], some ⟨'e', ['+'], ['2']⟩⟩⟩,
    ⟨['0'], [], [], ⟨[], [], ['.'], ['5'], none⟩⟩]

theorem areDigits_singleton {c : Char} (h : c.isDigit = true) : AreDigits [c] :=
  ⟨List.cons_ne_nil c [], List.forall_mem_singleton.mpr h⟩

theorem written_pairTokens : ∀ t ∈ pairTokens, t.Written := by
  have hblank : ∀ c ∈ [' '], isBlank c = true := List.forall_mem_singleton.mpr (by decide)
  refine List.forall_mem_cons.mpr ⟨?_, List.forall_mem_singleton.mpr ?_⟩
  · refine ⟨areDigits_singleton rfl, hblank, hblank,
      ⟨Or.inr (Or.inr rfl), .whole (areDigits_singleton rfl), ?_⟩⟩
    rintro e ⟨⟩
    exact ⟨Or.inl rfl, Or.inr (Or.inl rfl), areDigits_singleton rfl⟩
  · refine ⟨areDigits_singleton rfl, List.forall_mem_nil _, List.forall_mem_nil _,
      ⟨Or.inl rfl, .fraction (areDigits_singleton rfl), ?_⟩⟩
    rintro e ⟨⟩

theorem pairLine_accepted :
    ∃ v, standard.parseLine? (separatedLine [','] pairTokens) = some (.ok v) ∧ IsPointOf pairTokens v := by
  have hfirst := followsFirst_separatedLine [','] pairTokens
  have hwritten := writtenAs_separatedLine (areSeparators_singleton (c := ',') rfl) written_pairTokens
  have hcoordinates : AreCoordinates pairTokens := ⟨by decide, by decide, by decide⟩
  obtain ⟨-, haccepted, hvalues⟩ := parseLine?_eq_ok_iff_grammar standard (separatedLine [','] pairTokens)
  obtain ⟨v, hv⟩ := haccepted.mpr ⟨_, _, hfirst, hwritten, hcoordinates⟩
  exact ⟨v, hv, (hvalues v _ _ hv hfirst hwritten).2⟩

/-- What a line of tokens and separators gives is told by the multiset of the indices and numbers of its tokens:
the least repeated index, otherwise the least absent one if the indices are not `0, 1, …`, otherwise the numbers
by their indices. So another such line whose tokens have the same indices and numbers in another order, with other
separators between them, gives the same. -/
theorem parseLine?_gives {line : String} {tail : List Char} {ts : List Token}
    (hfirst : FollowsFirst p.marker.toList line.toList tail) (hts : WrittenAs ts tail)
    (hpositions : ∀ t ∈ ts, t.position < 2 ^ 64) :
    ∃ r, p.parseLine? line = some r ∧ Gives (ts.map Token.entry : List (ℕ × Float)) r ∧
      ∀ (q : MarkerParser) (line' : String) (tail' : List Char) (ts' : List Token),
        FollowsFirst q.marker.toList line'.toList tail' → WrittenAs ts' tail' →
        (ts'.map Token.entry).Perm (ts.map Token.entry) → q.parseLine? line' = some r := by
  have hgives := readPoint_gives hts hpositions
  refine ⟨readPoint tail, parseLine?_of_followsFirst hfirst, hgives, ?_⟩
  intro q line' tail' ts' hfirst' hts' hperm
  have hpositions' : ∀ t ∈ ts', t.position < 2 ^ 64 := by
    intro t ht
    obtain ⟨u, hu, hentry⟩ := List.mem_map.mp (hperm.mem_iff.mp (List.mem_map_of_mem ht))
    have hposition : u.position = t.position := congrArg Prod.fst hentry
    rw [← hposition]
    exact hpositions u hu
  have hgives' := readPoint_gives hts' hpositions'
  rw [Multiset.coe_eq_coe.mpr hperm] at hgives'
  rw [parseLine?_of_followsFirst hfirst', hgives'.unique hgives]

theorem pairLine_reversed :
    ∃ r, standard.parseLine? (separatedLine [','] pairTokens) = some r ∧
      standard.parseLine? (separatedLine [' '] pairTokens.reverse) = some r := by
  obtain ⟨r, hr, -, hsame⟩ := parseLine?_gives (followsFirst_separatedLine [','] pairTokens)
    (writtenAs_separatedLine (areSeparators_singleton rfl) written_pairTokens) (by decide)
  refine ⟨r, hr, hsame _ _ _ _ (followsFirst_separatedLine [' '] pairTokens.reverse)
    (writtenAs_separatedLine (areSeparators_singleton rfl) ?_) ((List.reverse_perm _).map _)⟩
  intro t ht
  exact written_pairTokens t (List.mem_reverse.mp ht)

/-! ### Infinities -/

/-- A point of a report is that of a line of tokens and separators. No value is a NaN, and all are finite exactly
if the number of each token is less in size than half a step beyond the largest double; otherwise the point is
accepted with an infinity. -/
theorem Assembles.isFinite_iff {logs : List Log} {report : LogReport} (h : p.Assembles logs report)
    {v : BestPoint} (hv : v ∈ report.points) :
    ∃ m ∈ logs.flatMap p.markerLines, v.source = m.source ∧ v.line = m.number ∧
      ∃ tail ts, FollowsFirst p.marker.toList m.text tail ∧ WrittenAs ts tail ∧ AreCoordinates ts ∧
        IsPointOf ts v.values ∧ (∀ x ∈ v.values, x.isNaN = false) ∧
        ((∀ x ∈ v.values, x.isFinite = true) ↔ ∀ t ∈ ts, |t.number.exact| < overflowBound) := by
  obtain ⟨settled, hsettles, hperm⟩ := exists_settled h
  have hentry : Except.ok v ∈ report.entries := List.mem_append_left _ (List.mem_map.mpr ⟨v, hv, rfl⟩)
  obtain ⟨m, hm, hsettled⟩ := exists_of_mem_forall₂ hsettles (hperm.mem_iff.mpr hentry)
  cases hsettled with
  | @point values hread =>
  obtain ⟨tail, hfirst, hpoint⟩ := exists_followsFirst_of_parseLine? hread
  rw [String.toList_ofList] at hfirst
  obtain ⟨ts, hts, -⟩ := (exists_readPoint_eq_ok_iff tail).mp ⟨values, hpoint⟩
  obtain ⟨hcoordinates, hvalues⟩ := isPointOf_of_readPoint hts hpoint
  refine ⟨m, hm, rfl, rfl, tail, ts, hfirst, hts, hcoordinates, hvalues, ?_, ?_, ?_⟩
  · intro x hx
    obtain ⟨t, -, hnearest⟩ := hvalues.exists_token hcoordinates hx
    exact hnearest.isNaN_eq_false
  · intro hfinite t ht
    obtain ⟨x, hx, hnearest⟩ := hvalues.nearest t ht
    exact hnearest.finite_iff.mp (hfinite x (List.mem_of_getElem? hx))
  · intro hsmall x hx
    obtain ⟨t, ht, hnearest⟩ := hvalues.exists_token hcoordinates hx
    exact hnearest.finite_iff.mpr (hsmall t ht)

/-- The number of a token that is beyond all doubles. -/
def hugeText : String := "#### Best para[0]=1e400,"

/-- A report with an infinite value. -/
theorem hugeText_infinite : ∃ v ∈ (standard.readText "log" hugeText).points, ∃ x ∈ v.values,
    x.isFinite = false := by
  decide +kernel

theorem hugeText_isFinite_iff : ∃ v ∈ (standard.readText "log" hugeText).points, ∃ ts,
    AreCoordinates ts ∧ IsPointOf ts v.values ∧ ¬ ∀ t ∈ ts, |t.number.exact| < overflowBound := by
  have hassembles : standard.Assembles [Log.ofText "log" hugeText] (standard.readText "log" hugeText) :=
    .read (.text "log" hugeText)
  have hne : (standard.readText "log" hugeText).points ≠ [] := by decide +kernel
  have hinfinite : ∀ v ∈ (standard.readText "log" hugeText).points, ¬ ∀ x ∈ v.values, x.isFinite = true := by
    decide +kernel
  have hv := List.head_mem hne
  obtain ⟨m, -, -, -, tail, ts, -, -, hcoordinates, hvalues, -, hiff⟩ := hassembles.isFinite_iff hv
  exact ⟨_, hv, ts, hcoordinates, hvalues, fun hsmall => hinfinite _ hv (hiff.mpr hsmall)⟩

end MarkerParser

end DelayTuning
