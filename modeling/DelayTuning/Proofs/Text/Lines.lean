import DelayTuning.Text.Lines
import Mathlib

/-!
# Lines that are joined

Lines without line ends in them come back from a text in which they stand one after the other, each ended by a
line feed or separated by one. No line of any text has a line feed in it.

## Main definitions

- `IsPlainLine`: a line that no line end can be found in

## Main statements

- `splitLines_terminated`, `textLines_join`, `splitLines_intercalate`: the lines of such texts
- `forall_mem_intercalate`: what holds of the separator and of the parts
- `lineFeed_notMem_splitLines`: a line has no line feed
- `splitLines_closed`: what holds of the lines and of the line ends holds of the whole
-/

namespace DelayTuning

variable {β : Type} [DecidableEq β] {lineFeed carriageReturn : β}

/-- No line feed, and no carriage return that would count as part of the line's end. -/
def IsPlainLine (lineFeed carriageReturn : β) (line : List β) : Prop :=
  lineFeed ∉ line ∧ line.getLast? ≠ some carriageReturn

theorem finishLine_reverse {line : List β} (h : line.getLast? ≠ some carriageReturn) :
    finishLine carriageReturn line.reverse = line := by
  rw [← List.head?_reverse] at h
  cases hreverse : line.reverse with
  | nil => exact (List.reverse_eq_nil_iff.mp hreverse).symm
  | cons c rest =>
    have hc : c ≠ carriageReturn := by
      rintro rfl
      rw [hreverse] at h
      exact h rfl
    rw [finishLine, if_neg hc, ← hreverse, List.reverse_reverse]

theorem splitLinesFrom_append {line : List β} (h : lineFeed ∉ line) (current rest : List β) :
    splitLinesFrom lineFeed carriageReturn current (line ++ rest) =
      splitLinesFrom lineFeed carriageReturn (line.reverse ++ current) rest := by
  induction line generalizing current with
  | nil => rfl
  | cons c line ih =>
    have hc : c ≠ lineFeed := fun heq => h (heq ▸ List.mem_cons_self)
    have hline : lineFeed ∉ line := fun hmem => h (List.mem_cons_of_mem c hmem)
    rw [List.cons_append, splitLinesFrom, if_neg hc, ih hline, List.reverse_cons, List.append_assoc]
    rfl

/-- A plain line with its end is the first line of a text. -/
theorem splitLines_line_append {line : List β} (h : IsPlainLine lineFeed carriageReturn line)
    (rest : List β) :
    splitLines lineFeed carriageReturn (line ++ lineFeed :: rest) =
      line :: splitLines lineFeed carriageReturn rest := by
  rw [splitLines, splitLinesFrom_append h.1, List.append_nil, splitLinesFrom, if_pos rfl,
    finishLine_reverse h.2]
  rfl

/-- A line that is not empty needs no end. -/
theorem splitLines_line {line : List β} (h : lineFeed ∉ line) (hne : line ≠ []) :
    splitLines lineFeed carriageReturn line = [line] := by
  have happend := @splitLinesFrom_append β _ lineFeed carriageReturn line h [] []
  have hreverse : line.reverse.isEmpty = false := by
    simpa using hne
  rw [List.append_nil, List.append_nil] at happend
  rw [splitLines, happend, splitLinesFrom, hreverse, List.reverse_reverse]
  rfl

theorem splitLines_terminated {lines : List (List β)}
    (h : ∀ line ∈ lines, IsPlainLine lineFeed carriageReturn line) :
    splitLines lineFeed carriageReturn (lines.flatMap (· ++ [lineFeed])) = lines := by
  induction lines with
  | nil => rfl
  | cons line rest ih =>
    rw [List.flatMap_cons, List.append_assoc, List.singleton_append,
      splitLines_line_append (h line List.mem_cons_self),
      ih fun l hl => h l (List.mem_cons_of_mem line hl)]

/-- The lines of a text in which plain lines end with a line feed. -/
theorem textLines_join {lines : List String} (h : ∀ line ∈ lines, IsPlainLine '\n' '\r' line.toList) :
    textLines (String.join (lines.map (· ++ "\n"))).toList = lines.map String.toList := by
  have hterminated := splitLines_terminated (List.forall_mem_map.mpr h)
  rw [List.flatMap_map] at hterminated
  rw [String.toList_join, List.flatMap_map]
  simpa [textLines] using hterminated

theorem splitLines_intercalate {lines : List (List β)}
    (h : ∀ line ∈ lines, IsPlainLine lineFeed carriageReturn line ∧ line ≠ []) :
    splitLines lineFeed carriageReturn ([lineFeed].intercalate lines) = lines := by
  induction lines with
  | nil => rfl
  | cons line rest ih =>
    obtain ⟨hplain, hne⟩ := h line List.mem_cons_self
    cases rest with
    | nil =>
      rw [List.intercalate_singleton]
      exact splitLines_line hplain.1 hne
    | cons next rest =>
      rw [List.intercalate_cons_cons, List.append_assoc, List.singleton_append,
        splitLines_line_append hplain, ih fun l hl => h l (List.mem_cons_of_mem line hl)]

theorem finishLine_subset (current : List β) : finishLine carriageReturn current ⊆ current := by
  intro c hc
  cases current with
  | nil => exact hc
  | cons last rest =>
    rw [finishLine] at hc
    split at hc
    · exact List.mem_cons_of_mem last (List.mem_reverse.mp hc)
    · exact List.mem_reverse.mp hc

theorem lineFeed_notMem_splitLinesFrom {current : List β} (h : lineFeed ∉ current) (s : List β) :
    ∀ line ∈ splitLinesFrom lineFeed carriageReturn current s, lineFeed ∉ line := by
  induction s generalizing current with
  | nil =>
    rw [splitLinesFrom]
    split
    · simp
    · simpa using h
  | cons c rest ih =>
    rw [splitLinesFrom]
    split
    · refine List.forall_mem_cons.mpr ⟨fun hmem => h (finishLine_subset current hmem), ?_⟩
      exact ih List.not_mem_nil
    · next hne =>
      refine ih fun hmem => ?_
      obtain heq | hmem := List.mem_cons.mp hmem
      · exact hne heq.symm
      · exact h hmem

/-- No line has a line feed in it. -/
theorem lineFeed_notMem_splitLines (s : List β) :
    ∀ line ∈ splitLines lineFeed carriageReturn s, lineFeed ∉ line :=
  lineFeed_notMem_splitLinesFrom List.not_mem_nil s

/-! ### Properties of the whole -/

/-- What holds of the elements of the separator and of the parts holds of all elements. -/
theorem forall_mem_intercalate {α : Type} {P : α → Prop} {separator : List α} (hseparator : ∀ a ∈ separator, P a)
    {parts : List (List α)} (h : ∀ part ∈ parts, ∀ a ∈ part, P a) : ∀ a ∈ separator.intercalate parts, P a := by
  induction parts with
  | nil => exact List.forall_mem_nil P
  | cons part rest ih =>
    obtain ⟨hpart, hrest⟩ := List.forall_mem_cons.mp h
    cases rest with
    | nil =>
      rw [List.intercalate_singleton]
      exact hpart
    | cons next rest =>
      rw [List.intercalate_cons_cons]
      exact List.forall_mem_append.mpr ⟨List.forall_mem_append.mpr ⟨hpart, hseparator⟩, ih hrest⟩

section Closed

variable {P : List β → Prop}

theorem closed_of_finishLine (hreturn : P [carriageReturn]) (happend : ∀ a b, P a → P b → P (a ++ b))
    {current : List β} (h : P (finishLine carriageReturn current)) : P current.reverse := by
  cases current with
  | nil => exact h
  | cons c rest =>
    rw [finishLine] at h
    split at h
    · next hc =>
      rw [List.reverse_cons, hc]
      exact happend _ _ h hreturn
    · exact h

theorem splitLinesFrom_closed (hnil : P []) (hfeed : P [lineFeed]) (hreturn : P [carriageReturn])
    (happend : ∀ a b, P a → P b → P (a ++ b)) {current s : List β}
    (h : ∀ line ∈ splitLinesFrom lineFeed carriageReturn current s, P line) :
    P (current.reverse ++ s) := by
  induction s generalizing current with
  | nil =>
    rw [List.append_nil]
    cases current with
    | nil => exact hnil
    | cons c rest => exact h _ List.mem_cons_self
  | cons c s ih =>
    rw [splitLinesFrom] at h
    split at h
    · next hc =>
      obtain ⟨hline, hrest⟩ := List.forall_mem_cons.mp h
      have hwhole := happend _ _ (closed_of_finishLine hreturn happend hline)
        (happend _ _ hfeed (ih hrest))
      rwa [hc]
    · have hwhole := ih h
      rwa [List.reverse_cons, List.append_assoc] at hwhole

/-- What holds of the lines and of the line ends, and of whatever is put together from such pieces, holds of the
whole. -/
theorem splitLines_closed (hnil : P []) (hfeed : P [lineFeed]) (hreturn : P [carriageReturn])
    (happend : ∀ a b, P a → P b → P (a ++ b)) {s : List β}
    (h : ∀ line ∈ splitLines lineFeed carriageReturn s, P line) : P s :=
  splitLinesFrom_closed hnil hfeed hreturn happend h

end Closed

end DelayTuning
