import DelayTuning.Proofs.Log.Merge

/-!
# Reports that are put together

Reports on logs can be merged in any grouping, each of the two being merged from others. Whatever the grouping,
every marker line is settled once: it is a point with the values that were read, or a failure with its fault, and
both carry the source and the number of the line. A merge can turn a point into a failure, for its length, and
does nothing else to it. All points of a report have the length of the first one.

## Main definitions

- `MarkerParser.MarkerLine`, `MarkerParser.markerLines`: a line with the marker, the marker lines of a log
- `MarkerParser.Settles`: what may become of a marker line
- `MarkerParser.Assembles`: the reports that come from reading and merging
- `LogReport.entries`, `Demotes`: the contents of a report, and what a merge may do to each of them

## Main statements

- `LogReport.exists_entries_merge`: what becomes of the contents of a report that is merged into another one
- `MarkerParser.exists_settled`: every marker line is settled once
- `MarkerParser.assembled_report`: all about a report that has been put together
-/

namespace DelayTuning

/-! ### Contents of reports -/

/-- What the check of lengths may do to a marker line: a point may become a failure. -/
inductive Demotes : MarkerEntry → MarkerEntry → Prop
  | keep (entry : MarkerEntry) : Demotes entry entry
  | misfit {v : BestPoint} {expected : ℕ} (h : v.values.length ≠ expected) :
    Demotes (.ok v) (.error ⟨v.source, v.line, .dimensionMismatch expected v.values.length⟩)

/-- All points have the length of the first one. -/
def Uniform (points : List BestPoint) : Prop :=
  ∀ v ∈ points, some v.values.length = leadingDimension? points

theorem Uniform.exists_length_eq {points : List BestPoint} (h : Uniform points) :
    ∃ dimension, ∀ v ∈ points, v.values.length = dimension := by
  refine ⟨(leadingDimension? points).getD 0, fun v hv => ?_⟩
  rw [← h v hv]
  rfl

/-- Points that are checked against the length of the first one keep a list uniform. -/
theorem Uniform.append {points : List BestPoint} (h : Uniform points) (more : List BestPoint) :
    Uniform (points ++ pointsOfLength (leadingDimension? (points ++ more)) more) := by
  cases points with
  | nil =>
    intro v hv
    rw [List.nil_append, List.nil_append, leadingDimension?_pointsOfLength] at *
    exact beq_iff_eq.mp (List.mem_filter.mp hv).2
  | cons first others =>
    intro v hv
    have hlead : leadingDimension? (first :: others ++ pointsOfLength
        (leadingDimension? (first :: others ++ more)) more) = leadingDimension? (first :: others) := rfl
    rw [hlead]
    obtain hv | hv := List.mem_append.mp hv
    · exact h v hv
    · exact beq_iff_eq.mp (List.mem_filter.mp hv).2

namespace LogReport

/-- The contents of a report: its points, then its failures. -/
def entries (r : LogReport) : List MarkerEntry :=
  r.points.map Except.ok ++ r.failures.map Except.error

theorem length_entries (r : LogReport) : r.entries.length = r.unparsedCount + r.points.length := by
  simp [entries, unparsedCount, Nat.add_comm]

theorem entries_accept_perm {points : List BestPoint} {failures : List LineFailure} (v : BestPoint) :
    (entries ⟨points ++ [v], failures⟩).Perm (entries ⟨points, failures⟩ ++ [.ok v]) := by
  simp only [entries, List.map_append, List.map_cons, List.map_nil, List.append_assoc]
  exact List.perm_append_comm.append_left _

theorem entries_reject (r : LogReport) (f : LineFailure) :
    (r.reject f).entries = r.entries ++ [.error f] := by
  simp [entries, reject]

/-- One more marker line is one more point or failure; a point of another length becomes a failure. -/
theorem exists_entries_add (r : LogReport) (entry : MarkerEntry) :
    ∃ settled, Demotes entry settled ∧ (r.add entry).entries.Perm (r.entries ++ [settled]) := by
  cases entry with
  | error f => exact ⟨_, .keep _, .of_eq (r.entries_reject f)⟩
  | ok v =>
    rw [add, accept]
    split
    · split
      · exact ⟨_, .keep _, entries_accept_perm v⟩
      · next hlength => exact ⟨_, .misfit hlength, .of_eq (r.entries_reject _)⟩
    · exact ⟨_, .keep _, entries_accept_perm v⟩

theorem exists_entries_foldl_add (r : LogReport) (more : List MarkerEntry) :
    ∃ settled, List.Forall₂ Demotes more settled ∧
      (more.foldl add r).entries.Perm (r.entries ++ settled) := by
  induction more generalizing r with
  | nil => exact ⟨[], .nil, by simp⟩
  | cons entry rest ih =>
    obtain ⟨first, hfirst, hadd⟩ := r.exists_entries_add entry
    obtain ⟨later, hlater, hrest⟩ := ih (r.add entry)
    refine ⟨first :: later, .cons hfirst hlater, hrest.trans ?_⟩
    rw [← List.singleton_append, ← List.append_assoc]
    exact hadd.append_right later

/-- A merge keeps the contents of the receiving report and takes over those of the other one; of these, points of
another length become failures. -/
theorem exists_entries_merge (r other : LogReport) :
    ∃ settled, List.Forall₂ Demotes other.entries settled ∧
      (r.merge other).entries.Perm (r.entries ++ settled) := by
  obtain ⟨checked, hchecked, hperm⟩ := r.exists_entries_foldl_add (other.points.map Except.ok)
  rw [← foldl_accept_eq] at hperm
  have hmerge : (r.merge other).entries =
      (other.points.foldl accept r).entries ++ other.failures.map Except.error := by
    simp [merge, entries]
  have hfailures : List.Forall₂ Demotes (other.failures.map Except.error)
      (other.failures.map Except.error) :=
    List.forall₂_same.mpr fun entry _ => .keep entry
  refine ⟨checked ++ other.failures.map Except.error, List.rel_append hchecked hfailures, ?_⟩
  rw [hmerge, ← List.append_assoc]
  exact hperm.append_right _

end LogReport

namespace MarkerParser

variable {p : MarkerParser}

/-! ### Marker lines -/

theorem isSome_afterMarker?_iff (marker line : List Char) :
    (afterMarker? marker line).isSome = true ↔ marker <:+: line := by
  induction line with
  | nil =>
    rw [afterMarker?, List.infix_nil, ← List.isEmpty_iff]
    split
    · next h => simp [h]
    · next h => simp [h]
  | cons c rest ih =>
    rw [afterMarker?, List.infix_cons_iff, ← List.isPrefixOf_iff_prefix]
    split
    · next h => simp [h]
    · next h => simp [h, ih]

/-- A line that contains the marker. -/
structure MarkerLine where
  source : String
  /-- The number of the line in its source, from one. -/
  number : ℕ
  text : List Char
  deriving DecidableEq, Repr

def markerLinesFrom (p : MarkerParser) (source : String) : ℕ → List (List Char) → List MarkerLine
  | _, [] => []
  | number, text :: rest =>
    if p.marker.toList <:+: text then ⟨source, number, text⟩ :: p.markerLinesFrom source (number + 1) rest
    else p.markerLinesFrom source (number + 1) rest

/-- The lines of a log that contain the marker. -/
def markerLines (p : MarkerParser) (log : Log) : List MarkerLine :=
  p.markerLinesFrom log.source 1 log.lines

/-- What may become of a marker line. A line that can be read is a point with its values, or a failure for their
number; a line that cannot be read is a failure with its fault. -/
inductive Settles (p : MarkerParser) : MarkerLine → MarkerEntry → Prop
  | point {m : MarkerLine} {values : List Float}
    (h : p.parseLine? (String.ofList m.text) = some (.ok values)) :
    Settles p m (.ok ⟨m.source, m.number, values⟩)
  | fault {m : MarkerLine} {fault : LineFault}
    (h : p.parseLine? (String.ofList m.text) = some (.error fault)) :
    Settles p m (.error ⟨m.source, m.number, fault⟩)
  | misfit {m : MarkerLine} {values : List Float} {expected : ℕ}
    (h : p.parseLine? (String.ofList m.text) = some (.ok values)) (hlength : values.length ≠ expected) :
    Settles p m (.error ⟨m.source, m.number, .dimensionMismatch expected values.length⟩)

theorem Settles.demotes {m : MarkerLine} {entry settled : MarkerEntry} (h : p.Settles m entry)
    (hdemotes : Demotes entry settled) : p.Settles m settled := by
  cases hdemotes with
  | keep => exact h
  | misfit hlength =>
    cases h with
    | point hread => exact .misfit hread hlength

theorem settles_demoted {lines : List MarkerLine} {entries settled : List MarkerEntry}
    (h : List.Forall₂ p.Settles lines entries) (hdemotes : List.Forall₂ Demotes entries settled) :
    List.Forall₂ p.Settles lines settled := by
  induction h generalizing settled with
  | nil =>
    cases hdemotes
    exact .nil
  | cons hline _ ih =>
    obtain _ | ⟨hfirst, hrest⟩ := hdemotes
    exact .cons (hline.demotes hfirst) (ih hrest)

theorem parseLine?_ofList (p : MarkerParser) (text : List Char) :
    p.parseLine? (String.ofList text) = p.parseChars? text := by
  rw [parseLine?, String.toList_ofList]

theorem settles_entriesFrom (p : MarkerParser) (source : String) (number : ℕ)
    (lines : List (List Char)) :
    List.Forall₂ p.Settles (p.markerLinesFrom source number lines)
      (p.entriesFrom source number lines) := by
  induction lines generalizing number with
  | nil => exact .nil
  | cons text rest ih =>
    have hmarker := isSome_afterMarker?_iff p.marker.toList text
    have hparse := p.parseLine?_ofList text
    rw [markerLinesFrom, entriesFrom, entry?]
    rw [parseChars?] at hparse ⊢
    cases hafter : afterMarker? p.marker.toList text with
    | none =>
      rw [hafter] at hmarker
      rw [if_neg fun h => Bool.false_ne_true (hmarker.mpr h)]
      exact ih (number + 1)
    | some tail =>
      rw [hafter] at hmarker hparse
      rw [if_pos (hmarker.mp rfl)]
      refine .cons ?_ (ih (number + 1))
      rw [Option.map_some] at hparse
      cases hread : readPoint tail with
      | ok values => exact .point (hread ▸ hparse)
      | error fault => exact .fault (hread ▸ hparse)

/-! ### Reading and merging -/

/-- The reports on logs that come from reading each of them and merging in any grouping, each starting from an
empty report. -/
inductive Assembles (p : MarkerParser) : List Log → LogReport → Prop
  | empty : Assembles p [] .empty
  | read {log : Log} {report : LogReport} (h : p.Reports log report) : Assembles p [log] report
  | merge {logs more : List Log} {r other : LogReport} (hr : Assembles p logs r)
    (hother : Assembles p more other) : Assembles p (logs ++ more) (r.merge other)

/-- Reports that are merged one after the other, as the command for clustering does. -/
theorem Assembles.foldl_merge {logs more : List Log} {r : LogReport} {reports : List LogReport}
    (hr : p.Assembles logs r) (h : List.Forall₂ p.Reports more reports) :
    p.Assembles (logs ++ more) (reports.foldl LogReport.merge r) := by
  induction h generalizing logs r with
  | nil => rwa [List.append_nil]
  | @cons log report more reports hreport _ ih =>
    rw [List.append_cons]
    exact ih (hr.merge (.read hreport))

/-- Every marker line is settled once, in whatever grouping the reports have been merged. -/
theorem exists_settled {logs : List Log} {report : LogReport} (h : p.Assembles logs report) :
    ∃ settled, List.Forall₂ p.Settles (logs.flatMap p.markerLines) settled ∧
      settled.Perm report.entries := by
  induction h with
  | empty => exact ⟨[], .nil, .refl _⟩
  | @read log report hreport =>
    obtain ⟨settled, hdemotes, hperm⟩ := LogReport.exists_entries_foldl_add .empty (p.entries log)
    rw [← readLog_eq, ← hreport.eq_readLog] at hperm
    rw [List.flatMap_singleton]
    exact ⟨settled, settles_demoted (settles_entriesFrom p log.source 1 log.lines) hdemotes, hperm.symm⟩
  | @merge logs more r other _ _ ihr ihother =>
    obtain ⟨received, hreceived, hr⟩ := ihr
    obtain ⟨taken, htaken, hother⟩ := ihother
    obtain ⟨checked, hchecked, hmerge⟩ := r.exists_entries_merge other
    -- what a merge does to the contents of the other report it does to the marker lines settled by them
    obtain ⟨settled, hdemotes, hsettled⟩ := List.perm_comp_forall₂ hother hchecked
    refine ⟨received ++ settled, ?_, (hr.append hsettled).trans hmerge.symm⟩
    rw [List.flatMap_append]
    exact List.rel_append hreceived (settles_demoted htaken hdemotes)

theorem Assembles.uniform {logs : List Log} {report : LogReport} (h : p.Assembles logs report) :
    Uniform report.points := by
  have hnil : Uniform [] := by simp [Uniform]
  induction h with
  | empty => exact hnil
  | @read log report hreport =>
    rw [hreport.eq_readLog, points_readLog]
    exact hnil.append _
  | @merge logs more r other _ _ ihr _ =>
    rw [LogReport.points_merge]
    exact ihr.append _

theorem Assembles.sublist {logs : List Log} {report : LogReport} (h : p.Assembles logs report) :
    report.points.Sublist (logs.flatMap p.pointsOf) := by
  induction h with
  | empty => exact .slnil
  | @read log report hreport =>
    rw [hreport.eq_readLog, points_readLog, List.flatMap_singleton]
    exact List.filter_sublist
  | @merge logs more r other _ _ ihr ihother =>
    rw [LogReport.points_merge, List.flatMap_append]
    exact ihr.append (List.filter_sublist.trans ihother)

/-- Of a report that comes from reading logs and merging in any grouping:
each line with the marker is settled by exactly one point or failure, which has its source and number and, if it is
a point, exactly the values that were read; nothing else is in the report;
all points have the length of the first one;
the points of a merge are those of the receiving report, then those of the other one that have this length, in the
orders they had; and points and failures together are as many as the lines with the marker. -/
theorem assembled_report {logs : List Log} {report : LogReport} (h : p.Assembles logs report) :
    (∃ settled, List.Forall₂ p.Settles (logs.flatMap p.markerLines) settled ∧
      settled.Perm report.entries) ∧
    (∀ v ∈ report.points, some v.values.length = report.dimension?) ∧
    report.points.Sublist (logs.flatMap p.pointsOf) ∧
    (∀ more other, p.Assembles more other →
      p.Assembles (logs ++ more) (report.merge other) ∧
      (report.merge other).points = report.points ++ other.points.filter fun v =>
        some v.values.length == (report.merge other).dimension?) ∧
    report.unparsedCount + report.points.length = (logs.flatMap p.markerLines).length := by
  refine ⟨exists_settled h, h.uniform, h.sublist, ?_, ?_⟩
  · intro more other hother
    refine ⟨h.merge hother, ?_⟩
    have hdimension : (report.merge other).dimension? =
        leadingDimension? (report.points ++ other.points) := by
      rw [LogReport.dimension?_eq, LogReport.points_merge]
      cases report.points with
      | nil => exact leadingDimension?_pointsOfLength other.points
      | cons first others => rfl
    rw [hdimension]
    exact LogReport.points_merge report other
  · obtain ⟨settled, hsettled, hperm⟩ := exists_settled h
    rw [← LogReport.length_entries, ← hperm.length_eq, hsettled.length_eq]

/-- Two logs of different lengths merged: of their three marker lines one is lost to the points, and none to the
report. -/
theorem mixedReports_assembled :
    standard.Assembles mixedLogs (mixedReports.foldl LogReport.merge .empty) ∧
      (mixedReports.foldl LogReport.merge .empty).unparsedCount +
        (mixedReports.foldl LogReport.merge .empty).points.length = 3 := by
  have hassembles : standard.Assembles mixedLogs (mixedReports.foldl LogReport.merge .empty) :=
    Assembles.empty.foldl_merge reports_mixedLogs
  refine ⟨hassembles, ?_⟩
  rw [(assembled_report hassembles).2.2.2.2]
  decide +kernel

end MarkerParser

end DelayTuning
