import DelayTuning.Log.Line
import Mathlib

/-!
# Marker lines whose indices are in order

The numbers of a line are sorted by their indices, which must be `0, 1, …`. If they stand in this order already
the point of the line is the list of its numbers.

## Main statements

- `arrange_zipIdx`: numbers in the order of their indices
- `readPoint_of_ordered`: the point of a line
- `afterMarker?_append`: a line that begins with the marker
- `parseChars?_of_ordered`: the point of a line with the marker
-/

namespace DelayTuning

theorem firstRepeat?_zipIdx (vs : List Float) (i : Nat) :
    firstRepeat? ((vs.zipIdx i).map Prod.swap) = none := by
  induction vs generalizing i with
  | nil => rfl
  | cons v rest ih =>
    cases rest with
    | nil => rfl
    | cons w others =>
      have hne : i ≠ i + 1 := by omega
      have hnext := ih (i + 1)
      simp only [List.zipIdx_cons, List.map_cons, Prod.swap_prod_mk, firstRepeat?, if_neg hne]
        at hnext ⊢
      exact hnext

theorem firstGap?_zipIdx (vs : List Float) (i : Nat) :
    firstGap? i ((vs.zipIdx i).map Prod.swap) = none := by
  induction vs generalizing i with
  | nil => rfl
  | cons v rest ih =>
    simp only [List.zipIdx_cons, List.map_cons, Prod.swap_prod_mk, firstGap?, if_true]
    exact ih (i + 1)

theorem pairwise_zipIdx (vs : List Float) (i : Nat) :
    ((vs.zipIdx i).map Prod.swap).Pairwise (fun a b => decide (a.1 ≤ b.1) = true) := by
  induction vs generalizing i with
  | nil => exact List.Pairwise.nil
  | cons v rest ih =>
    rw [List.zipIdx_cons, List.map_cons, List.pairwise_cons]
    refine ⟨?_, ih (i + 1)⟩
    intro entry hentry
    obtain ⟨⟨w, k⟩, hmem, rfl⟩ := List.mem_map.mp hentry
    have hle := List.le_snd_of_mem_zipIdx hmem
    rw [decide_eq_true_iff, Prod.swap_prod_mk, Prod.swap_prod_mk]
    exact (Nat.le_succ i).trans hle

/-- Numbers with the indices `0, 1, …` are arranged as they are. -/
theorem arrange_zipIdx (vs : List Float) : arrange (vs.zipIdx.map Prod.swap) = .ok vs := by
  have hsorted := List.mergeSort_of_pairwise (pairwise_zipIdx vs 0)
  have hvalues : (vs.zipIdx.map Prod.swap).map Prod.snd = vs := by
    rw [List.map_map]
    exact List.zipIdx_map_fst 0 vs
  rw [arrange, hsorted]
  simp only [firstRepeat?_zipIdx, firstGap?_zipIdx, hvalues]

theorem readPoint_of_ordered {text tail : List Char} {tokens : List (List Char × Token)}
    {vs : List Float} (hpieces : Pieces.ofText text = ⟨tokens, tail⟩)
    (htokens : readTokens tokens = .ok (vs.zipIdx.map Prod.swap)) (hne : vs ≠ [])
    (htail : checkGap tail = .ok ()) : readPoint text = .ok vs := by
  have hsome : (vs.zipIdx.map Prod.swap).isEmpty = false := by
    cases vs with
    | nil => exact absurd rfl hne
    | cons v rest => rfl
  simp only [readPoint, hpieces, htokens, hsome, Bool.false_eq_true, if_false, htail, arrange_zipIdx]

theorem afterMarker?_append (marker text : List Char) :
    afterMarker? marker (marker ++ text) = some text := by
  have hprefix : marker.isPrefixOf (marker ++ text) = true :=
    List.isPrefixOf_iff_prefix.mpr (List.prefix_append marker text)
  cases hline : marker ++ text with
  | nil =>
    obtain ⟨rfl, rfl⟩ := List.append_eq_nil_iff.mp hline
    rfl
  | cons c rest =>
    rw [hline] at hprefix
    rw [afterMarker?, if_pos hprefix, ← hline, List.drop_left]

/-- A line with the marker and with tokens in order gives the point of their numbers. -/
theorem parseChars?_of_ordered {p : MarkerParser} {line text : List Char} {vs : List Float}
    (hmarker : afterMarker? p.marker.toList line = some text)
    (htokens : readTokens (Pieces.ofText text).tokens = .ok (vs.zipIdx.map Prod.swap)) (hne : vs ≠ [])
    (htail : checkGap (Pieces.ofText text).tail = .ok ()) : p.parseChars? line = some (.ok vs) := by
  rw [MarkerParser.parseChars?, hmarker, Option.map_some, readPoint_of_ordered rfl htokens hne htail]

end DelayTuning
