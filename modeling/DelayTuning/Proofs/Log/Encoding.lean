import DelayTuning.Proofs.Log.Merge
import DelayTuning.Proofs.Text.Lines

/-!
# Logs as bytes

A log that is given as bytes is split into lines first, and then each line is decoded; a text is decoded first
and split then. Both come to the same: the bytes of a line feed and of a carriage return do not occur inside of
any other character, so the lines of the bytes are the bytes of the lines, and bytes are a text if all their
lines are.

## Main definitions

- `encoded`: the bytes of a text in UTF-8

## Main statements

- `byteLines_encoded`: the lines of an encoded text
- `mapM_decodeLine?_byteLines_eq_some_iff`: which bytes have lines that can be decoded, and into what
- `MarkerParser.readBytes?_readText`: the report on bytes and the report on the text that they encode
-/

namespace DelayTuning

/-! ### Encoded characters -/

/-- The bytes of a text in UTF-8. -/
def encoded (s : List Char) : List UInt8 :=
  s.flatMap String.utf8EncodeChar

@[simp]
theorem encoded_nil : encoded [] = [] := rfl

theorem encoded_cons (c : Char) (s : List Char) :
    encoded (c :: s) = String.utf8EncodeChar c ++ encoded s :=
  List.flatMap_cons

theorem encoded_append (s t : List Char) : encoded (s ++ t) = encoded s ++ encoded t :=
  List.flatMap_append

theorem encoded_singleton (c : Char) : encoded [c] = String.utf8EncodeChar c :=
  List.flatMap_singleton _ _

/-- A byte below 128 is a character of its own. -/
theorem toNat_of_mem_utf8EncodeChar {c : Char} {byte : UInt8} (h : byte ∈ String.utf8EncodeChar c)
    (hbyte : byte.toNat < 128) : c.val.toNat = byte.toNat := by
  rw [String.utf8EncodeChar] at h
  split at h
  · next hsmall =>
    obtain rfl := List.mem_singleton.mp h
    rw [UInt8.toNat_ofNat']
    omega
  · -- all bytes of a longer code have their highest bit set
    exfalso
    split at h
    · simp only [List.mem_cons, List.not_mem_nil, or_false] at h
      obtain rfl | rfl := h
      all_goals rw [UInt8.toNat_ofNat'] at hbyte; omega
    split at h
    · simp only [List.mem_cons, List.not_mem_nil, or_false] at h
      obtain rfl | rfl | rfl := h
      all_goals rw [UInt8.toNat_ofNat'] at hbyte; omega
    · simp only [List.mem_cons, List.not_mem_nil, or_false] at h
      obtain rfl | rfl | rfl | rfl := h
      all_goals rw [UInt8.toNat_ofNat'] at hbyte; omega

theorem lineFeed_notMem_utf8EncodeChar {c : Char} (h : c ≠ '\n') : 10 ∉ String.utf8EncodeChar c := by
  intro hmem
  exact h (Char.ext (UInt32.toNat.inj (toNat_of_mem_utf8EncodeChar hmem (by decide))))

theorem carriageReturn_notMem_utf8EncodeChar {c : Char} (h : c ≠ '\r') :
    13 ∉ String.utf8EncodeChar c := by
  intro hmem
  exact h (Char.ext (UInt32.toNat.inj (toNat_of_mem_utf8EncodeChar hmem (by decide))))

/-! ### Lines of encoded texts -/

theorem getLast?_encoded_concat_ne {c : Char} (h : c ≠ '\r') (s : List Char) :
    (encoded (s ++ [c])).getLast? ≠ some 13 := by
  rw [encoded_append, encoded_singleton,
    List.getLast?_append_of_ne_nil _ String.utf8EncodeChar_ne_nil]
  intro hlast
  exact carriageReturn_notMem_utf8EncodeChar h (List.mem_of_getLast? hlast)

theorem finishLine_encoded (current : List Char) :
    finishLine 13 (encoded current.reverse).reverse = encoded (finishLine '\r' current) := by
  cases current with
  | nil => rfl
  | cons c rest =>
    rw [List.reverse_cons]
    by_cases hc : c = '\r'
    · subst hc
      have hreturn : encoded ['\r'] = [13] := rfl
      rw [encoded_append, hreturn, List.reverse_append, List.reverse_singleton,
        List.singleton_append, finishLine, if_pos rfl, List.reverse_reverse, finishLine, if_pos rfl]
    · rw [finishLine_reverse (getLast?_encoded_concat_ne hc _), finishLine, if_neg hc,
        List.reverse_cons]

theorem splitLinesFrom_encoded (current s : List Char) :
    splitLinesFrom 10 13 (encoded current.reverse).reverse (encoded s) =
      (splitLinesFrom '\n' '\r' current s).map encoded := by
  induction s generalizing current with
  | nil =>
    cases current with
    | nil => rfl
    | cons c rest =>
      have hnonempty : (encoded (c :: rest).reverse).reverse.isEmpty = false := by
        simp [encoded_append, encoded_singleton]
      rw [encoded_nil, splitLinesFrom, hnonempty, List.reverse_reverse]
      rfl
  | cons c s ih =>
    rw [encoded_cons, splitLinesFrom]
    by_cases hc : c = '\n'
    · subst hc
      have hfeed : String.utf8EncodeChar '\n' = [10] := rfl
      have hrest := ih []
      rw [hfeed, List.singleton_append, splitLinesFrom, if_pos rfl, if_pos rfl, finishLine_encoded,
        List.map_cons, ← hrest]
      rfl
    · have hrest := ih (c :: current)
      rw [List.reverse_cons, encoded_append, encoded_singleton, List.reverse_append] at hrest
      rw [if_neg hc, splitLinesFrom_append (lineFeed_notMem_utf8EncodeChar hc), hrest]

/-- The lines of an encoded text are its encoded lines. -/
theorem byteLines_encoded (s : List Char) : byteLines (encoded s) = (textLines s).map encoded :=
  splitLinesFrom_encoded [] s

/-- A carriage return ends a line only in front of a line feed. -/
example : byteLines (encoded ['é', '\r', '\n', '\n', 'b', '\r']) = [[0xC3, 0xA9], [], [98, 13]] := by decide

/-! ### Decoding -/

theorem toList_data_utf8Encode (s : List Char) : s.utf8Encode.data.toList = encoded s := by
  rw [List.utf8Encode, List.data_toByteArray]
  rfl

theorem isValidUTF8_iff {bytes : ByteArray} :
    bytes.IsValidUTF8 ↔ ∃ s, bytes.data.toList = encoded s := by
  constructor
  · rintro ⟨s, rfl⟩
    exact ⟨s, toList_data_utf8Encode s⟩
  · rintro ⟨s, hs⟩
    refine ⟨s, ByteArray.ext (Array.toList_inj.mp ?_)⟩
    rw [hs, toList_data_utf8Encode]

/-- Decoding undoes encoding, and it fails on everything else. -/
theorem decodeLine?_eq_some_iff {line : List UInt8} {s : List Char} :
    decodeLine? line = some s ↔ line = encoded s := by
  rw [decodeLine?, Option.map_eq_some_iff]
  constructor
  · rintro ⟨text, htext, rfl⟩
    rw [String.fromUTF8?] at htext
    split at htext
    · have hbytes : text.toByteArray = ⟨line.toArray⟩ := by
        cases htext
        rfl
      rw [← toList_data_utf8Encode, String.utf8Encode_toList, hbytes]
    · cases htext
  · rintro rfl
    have hbytes : (⟨(encoded s).toArray⟩ : ByteArray) = (String.ofList s).toByteArray := by
      rw [← String.utf8Encode_toList, String.toList_ofList]
      refine ByteArray.ext (Array.toList_inj.mp ?_)
      rw [toList_data_utf8Encode]
    refine ⟨String.ofList s, ?_, String.toList_ofList⟩
    rw [hbytes, String.fromUTF8?, dif_pos (String.ofList s).isValidUTF8]
    rfl

theorem encoded_injective : Function.Injective encoded := by
  intro s t h
  have hs : decodeLine? (encoded t) = some s := decodeLine?_eq_some_iff.mpr h.symm
  rw [decodeLine?_eq_some_iff.mpr rfl] at hs
  exact (Option.some.inj hs).symm

theorem mapM_decodeLine?_eq_some_iff {raw : List (List UInt8)} {lines : List (List Char)} :
    raw.mapM decodeLine? = some lines ↔ raw = lines.map encoded := by
  induction raw generalizing lines with
  | nil => cases lines <;> simp
  | cons line rest ih =>
    rw [List.mapM_cons, Option.bind_eq_bind, Option.bind_eq_some_iff]
    simp only [Option.bind_eq_bind, Option.bind_eq_some_iff, decodeLine?_eq_some_iff, ih]
    constructor
    · rintro ⟨s, rfl, others, rfl, hlines⟩
      obtain rfl := Option.some.inj hlines
      rfl
    · intro hlines
      obtain ⟨s, others, rfl, hs, hothers⟩ := List.map_eq_cons_iff.mp hlines.symm
      exact ⟨s, hs.symm, others, hothers.symm, rfl⟩

/-- Lines of bytes can be decoded iff the bytes are an encoded text, and then they are the lines of that
text. -/
theorem mapM_decodeLine?_byteLines_eq_some_iff {bytes : List UInt8} {lines : List (List Char)} :
    (byteLines bytes).mapM decodeLine? = some lines ↔ ∃ s, bytes = encoded s ∧ lines = textLines s := by
  rw [mapM_decodeLine?_eq_some_iff]
  constructor
  · intro hlines
    have hencoded : ∀ line ∈ byteLines bytes, ∃ s, line = encoded s := by
      rw [hlines]
      intro line hline
      obtain ⟨s, -, rfl⟩ := List.mem_map.mp hline
      exact ⟨s, rfl⟩
    -- the line ends are encoded texts as well, so the bytes as a whole are one
    obtain ⟨s, rfl⟩ := splitLines_closed (P := fun bytes => ∃ s, bytes = encoded s) ⟨[], rfl⟩
      ⟨['\n'], rfl⟩ ⟨['\r'], rfl⟩
      (by
        rintro _ _ ⟨s, rfl⟩ ⟨t, rfl⟩
        exact ⟨s ++ t, (encoded_append s t).symm⟩)
      hencoded
    rw [byteLines_encoded] at hlines
    exact ⟨s, rfl, (List.map_injective_iff.mpr encoded_injective hlines).symm⟩
  · rintro ⟨s, rfl, rfl⟩
    exact byteLines_encoded s

/-! ### Reports -/

namespace MarkerParser

theorem readBytes?_eq (p : MarkerParser) (source : String) (bytes : ByteArray) :
    p.readBytes? source bytes =
      ((byteLines bytes.data.toList).mapM decodeLine?).map (p.readLines source .empty 1) :=
  p.readByteLines?_eq source .empty 1 _

/-- There is no report on bytes exactly if they are not UTF-8. The report on the bytes of a text is the report
on the text, whatever its lines end with and whatever characters it has. -/
theorem readBytes?_readText (p : MarkerParser) (source : String) :
    (∀ bytes, p.readBytes? source bytes = none ↔ ¬ bytes.IsValidUTF8) ∧
      ∀ text : String, p.readBytes? source text.toUTF8 = some (p.readText source text) := by
  constructor
  · intro bytes
    rw [readBytes?_eq, Option.map_eq_none_iff, isValidUTF8_iff, Option.eq_none_iff_forall_ne_some]
    simp only [ne_eq, mapM_decodeLine?_byteLines_eq_some_iff]
    constructor
    · rintro h ⟨s, hs⟩
      exact h _ ⟨s, hs, rfl⟩
    · rintro h _ ⟨s, hs, -⟩
      exact h ⟨s, hs⟩
  · intro text
    have hbytes : text.toUTF8.data.toList = encoded text.toList := by
      rw [← toList_data_utf8Encode, String.utf8Encode_toList]
      rfl
    have hlines := mapM_decodeLine?_byteLines_eq_some_iff.mpr ⟨text.toList, hbytes, rfl⟩
    rw [readBytes?_eq, hlines]
    rfl

end MarkerParser

end DelayTuning
