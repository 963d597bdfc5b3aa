import DelayTuning.Command.Cluster
import DelayTuning.Proofs.Log.Line

/-!
# Reports on several logs

Logs can be read one by one, each with a report of its own, and the reports merged; or their lines can all go
into a single report. Either way every marker line is a point or a failure. The points differ, for a log's own
report has dropped what does not have the length of the log's own first point, and merging cannot bring it
back. The two ways agree iff no log has points of the length that counts without beginning with one.

## Main definitions

- `Log`: a source with its lines
- `MarkerParser.Reports`: the report on a log, read from a text or from bytes
- `MarkerParser.entries`: the marker lines of a log
- `MarkerParser.separately`, `MarkerParser.together`: the two ways to read logs

## Main statements

- `MarkerParser.points_together`, `MarkerParser.points_separately`: the points of the two reports
- `MarkerParser.merge_agrees_iff`: when the two reports agree
- `readLogs_eq_ok`: the command for clustering merges the reports on its logs
-/

namespace DelayTuning

/-- A source with its lines. -/
structure Log where
  source : String
  lines : List (List Char)
  deriving DecidableEq, Repr

def Log.ofText (source text : String) : Log :=
  ⟨source, textLines text.toList⟩

/-- A line of bytes; `none` if it is not UTF-8. -/
def decodeLine? (line : List UInt8) : Option (List Char) :=
  (String.fromUTF8? ⟨line.toArray⟩).map String.toList

def Log.ofBytes? (source : String) (bytes : ByteArray) : Option Log :=
  ((byteLines bytes.data.toList).mapM decodeLine?).map (⟨source, ·⟩)

/-! ### Marker lines -/

/-- A marker line: a point, or why there is none. -/
abbrev MarkerEntry := Except LineFailure BestPoint

/-- The source and the number of a line. -/
abbrev SourceLine := String × Nat

def BestPoint.place (v : BestPoint) : SourceLine := (v.source, v.line)

def LineFailure.place (f : LineFailure) : SourceLine := (f.source, f.line)

namespace MarkerEntry

def place : MarkerEntry → SourceLine
  | .ok v => v.place
  | .error f => f.place

end MarkerEntry

/-- The points among marker lines. -/
def wellFormedPoints (entries : List MarkerEntry) : List BestPoint :=
  entries.filterMap Except.toOption

/-- The length of the first point. -/
def leadingDimension? (points : List BestPoint) : Option Nat :=
  points.head?.map fun v => v.values.length

/-- The points of a given length. -/
def pointsOfLength (d : Option Nat) (points : List BestPoint) : List BestPoint :=
  points.filter fun v => some v.values.length == d

theorem leadingDimension?_append (points more : List BestPoint) :
    leadingDimension? (points ++ more) = (leadingDimension? points).or (leadingDimension? more) := by
  cases points <;> rfl

/-- Whoever keeps the points of the length of the first one keeps the first one. -/
theorem leadingDimension?_pointsOfLength (points : List BestPoint) :
    leadingDimension? (pointsOfLength (leadingDimension? points) points) =
      leadingDimension? points := by
  cases points with
  | nil => rfl
  | cons v rest => simp [pointsOfLength, leadingDimension?]

theorem pointsOfLength_pointsOfLength (d e : Option Nat) (points : List BestPoint) :
    pointsOfLength d (pointsOfLength e points) = if e = d then pointsOfLength d points else [] := by
  rw [pointsOfLength, pointsOfLength, List.filter_filter]
  split
  · next heq =>
    rw [heq, pointsOfLength]
    simp
  · next hne =>
    refine List.filter_eq_nil_iff.mpr ?_
    intro v _ hboth
    rw [Bool.and_eq_true, beq_iff_eq, beq_iff_eq] at hboth
    exact hne (hboth.2.symm.trans hboth.1)

namespace LogReport

/-- A report with one more marker line. -/
def add (r : LogReport) : MarkerEntry → LogReport
  | .ok v => r.accept v
  | .error f => r.reject f

/-- The places of all marker lines that a report knows of. -/
def places (r : LogReport) : List SourceLine :=
  r.points.map BestPoint.place ++ r.failures.map LineFailure.place

theorem places_reject (r : LogReport) (f : LineFailure) :
    (r.reject f).places = r.places ++ [f.place] := by
  simp [places, reject]

theorem places_accept (r : LogReport) (v : BestPoint) :
    (r.accept v).places.Perm (r.places ++ [v.place]) := by
  have hpoint : ({ r with points := r.points ++ [v] } : LogReport).places.Perm
      (r.places ++ [v.place]) := by
    rw [places, places, List.map_append, List.append_assoc, List.append_assoc]
    exact (List.perm_append_comm).append_left _
  rw [accept]
  split
  · split
    · exact hpoint
    · rw [places_reject]
      exact List.Perm.refl _
  · exact hpoint

theorem places_add (r : LogReport) (entry : MarkerEntry) :
    (r.add entry).places.Perm (r.places ++ [entry.place]) := by
  cases entry with
  | ok v => exact places_accept r v
  | error f => exact (places_reject r f).symm ▸ List.Perm.refl _

/-- No marker line is lost. -/
theorem places_foldl_add (r : LogReport) (entries : List MarkerEntry) :
    (entries.foldl add r).places.Perm (r.places ++ entries.map MarkerEntry.place) := by
  induction entries generalizing r with
  | nil => simp
  | cons entry rest ih =>
    refine (ih (r.add entry)).trans ?_
    rw [List.map_cons, ← List.singleton_append, ← List.append_assoc]
    exact (places_add r entry).append_right _

theorem dimension?_eq (r : LogReport) : r.dimension? = leadingDimension? r.points := rfl

/-- The points of a report after more marker lines: those whose length is that of the first point. -/
theorem points_foldl_add (r : LogReport) (entries : List MarkerEntry) :
    (entries.foldl add r).points = r.points ++
      pointsOfLength (leadingDimension? (r.points ++ wellFormedPoints entries))
        (wellFormedPoints entries) := by
  induction entries generalizing r with
  | nil => simp [wellFormedPoints, pointsOfLength]
  | cons entry rest ih =>
    rw [List.foldl_cons, ih]
    cases entry with
    | error f => rfl
    | ok v =>
      have hpoints : wellFormedPoints (.ok v :: rest) = v :: wellFormedPoints rest := rfl
      rw [hpoints]
      -- in an empty report the point fixes the length, otherwise the length is fixed already
      cases hr : r.points with
      | nil =>
        have haccept : (r.accept v).points = [v] := by
          rw [accept, dimension?_eq, hr]
          simp [leadingDimension?]
        simp [add, haccept, leadingDimension?, pointsOfLength]
      | cons first others =>
        by_cases hlength : v.values.length = first.values.length
        · have haccept : (r.accept v).points = first :: others ++ [v] := by
            rw [accept, dimension?_eq, hr]
            simp [leadingDimension?, hlength]
          simp [add, haccept, leadingDimension?, pointsOfLength, hlength]
        · have haccept : (r.accept v).points = first :: others := by
            rw [accept, dimension?_eq, hr]
            simp [leadingDimension?, hr, hlength, reject]
          simp [add, haccept, leadingDimension?, pointsOfLength, hlength]

theorem wellFormedPoints_map_ok (points : List BestPoint) :
    wellFormedPoints (points.map Except.ok) = points := by
  induction points with
  | nil => rfl
  | cons v rest ih => exact congrArg (v :: ·) ih

theorem foldl_accept_eq (r : LogReport) (points : List BestPoint) :
    points.foldl accept r = (points.map Except.ok).foldl add r := by
  rw [List.foldl_map]
  rfl

theorem points_merge (r other : LogReport) :
    (r.merge other).points = r.points ++
      pointsOfLength (leadingDimension? (r.points ++ other.points)) other.points := by
  rw [merge, foldl_accept_eq, points_foldl_add, wellFormedPoints_map_ok]

theorem places_merge (r other : LogReport) :
    (r.merge other).places.Perm (r.places ++ other.places) := by
  have hmerge : (r.merge other).places =
      (other.points.foldl accept r).places ++ other.failures.map LineFailure.place := by
    simp [merge, places]
  have hother : other.places =
      other.points.map BestPoint.place ++ other.failures.map LineFailure.place := rfl
  have hplaces := places_foldl_add r (other.points.map Except.ok)
  rw [List.map_map] at hplaces
  rw [hmerge, foldl_accept_eq, hother, ← List.append_assoc]
  exact hplaces.append_right _

end LogReport

namespace MarkerParser

variable {p : MarkerParser}

/-- The marker line that a line is, if it has the marker. -/
def entry? (p : MarkerParser) (source : String) (number : Nat) (line : List Char) :
    Option MarkerEntry :=
  (p.parseChars? line).map fun
    | .ok values => .ok ⟨source, number, values⟩
    | .error fault => .error ⟨source, number, fault⟩

def entriesFrom (p : MarkerParser) (source : String) : Nat → List (List Char) → List MarkerEntry
  | _, [] => []
  | number, line :: rest =>
    (p.entry? source number line).toList ++ p.entriesFrom source (number + 1) rest

/-- The marker lines of a log. -/
def entries (p : MarkerParser) (log : Log) : List MarkerEntry :=
  p.entriesFrom log.source 1 log.lines

/-- The points of a log's marker lines, of any length. -/
def pointsOf (p : MarkerParser) (log : Log) : List BestPoint :=
  wellFormedPoints (p.entries log)

/-- A report with the lines of one more log. -/
def readLog (p : MarkerParser) (r : LogReport) (log : Log) : LogReport :=
  p.readLines log.source r 1 log.lines

theorem readLines_eq (p : MarkerParser) (source : String) (r : LogReport) (number : Nat)
    (lines : List (List Char)) :
    p.readLines source r number lines = (p.entriesFrom source number lines).foldl LogReport.add r := by
  induction lines generalizing r number with
  | nil => rfl
  | cons line rest ih =>
    rw [readLines, ih, entriesFrom, List.foldl_append, entry?, readLine]
    cases p.parseChars? line with
    | none => rfl
    | some result =>
      cases result with
      | ok values => rfl
      | error fault => rfl

theorem readLog_eq (p : MarkerParser) (r : LogReport) (log : Log) :
    p.readLog r log = (p.entries log).foldl LogReport.add r :=
  readLines_eq p log.source r 1 log.lines

theorem readByteLines?_eq (p : MarkerParser) (source : String) (r : LogReport) (number : Nat)
    (lines : List (List UInt8)) :
    p.readByteLines? source r number lines =
      (lines.mapM decodeLine?).map (p.readLines source r number) := by
  induction lines generalizing r number with
  | nil => rfl
  | cons line rest ih =>
    rw [readByteLines?, List.mapM_cons, decodeLine?]
    cases String.fromUTF8? ⟨line.toArray⟩ with
    | none => rfl
    | some text =>
      simp only [ih, Option.map_some, Option.bind_eq_bind, Option.bind_some, Option.map_bind]
      cases rest.mapM decodeLine? with
      | none => rfl
      | some decoded => rfl

/-- The report on a log, which is given as a text or as bytes. -/
inductive Reports (p : MarkerParser) : Log → LogReport → Prop
  | text (source text : String) : Reports p (.ofText source text) (p.readText source text)
  | bytes {source : String} {bytes : ByteArray} {log : Log} {report : LogReport}
    (hlog : Log.ofBytes? source bytes = some log)
    (hreport : p.readBytes? source bytes = some report) : Reports p log report

theorem Reports.eq_readLog {log : Log} {report : LogReport} (h : p.Reports log report) :
    report = p.readLog .empty log := by
  cases h with
  | text source text => rfl
  | @bytes source bytes log report hlog hreport =>
    rw [readBytes?, readByteLines?_eq] at hreport
    rw [Log.ofBytes?] at hlog
    cases hdecoded : (byteLines bytes.data.toList).mapM decodeLine? with
    | none =>
      rw [hdecoded] at hlog
      cases hlog
    | some lines =>
      rw [hdecoded] at hlog hreport
      cases hlog
      cases hreport
      rfl

/-- All lines in a single report. -/
def together (p : MarkerParser) (logs : List Log) : LogReport :=
  logs.foldl p.readLog .empty

/-- A report for each log, merged in order. -/
def separately (p : MarkerParser) (logs : List Log) : LogReport :=
  logs.foldl (fun r log => r.merge (p.readLog .empty log)) .empty

theorem foldl_readLog_eq (p : MarkerParser) (r : LogReport) (logs : List Log) :
    logs.foldl p.readLog r = (logs.flatMap p.entries).foldl LogReport.add r := by
  induction logs generalizing r with
  | nil => rfl
  | cons log rest ih => rw [List.foldl_cons, List.flatMap_cons, List.foldl_append, ih, readLog_eq]

theorem wellFormedPoints_flatMap (p : MarkerParser) (logs : List Log) :
    wellFormedPoints (logs.flatMap p.entries) = logs.flatMap p.pointsOf := by
  rw [wellFormedPoints, List.filterMap_flatMap]
  rfl

/-- The length that counts: that of the first point of all. -/
def dimension? (p : MarkerParser) (logs : List Log) : Option Nat :=
  leadingDimension? (logs.flatMap p.pointsOf)

theorem points_together (p : MarkerParser) (logs : List Log) :
    (p.together logs).points = logs.flatMap fun log =>
      pointsOfLength (p.dimension? logs) (p.pointsOf log) := by
  rw [together, foldl_readLog_eq, LogReport.points_foldl_add, wellFormedPoints_flatMap,
    pointsOfLength, List.filter_flatMap]
  rfl

/-- What a log's own report leaves of the points. -/
theorem points_readLog (p : MarkerParser) (log : Log) :
    (p.readLog .empty log).points =
      pointsOfLength (leadingDimension? (p.pointsOf log)) (p.pointsOf log) := by
  rw [readLog_eq, LogReport.points_foldl_add]
  rfl

/-- Merging reports after a report: each log's own points are checked against the length that counts. -/
theorem points_foldl_merge (p : MarkerParser) (r : LogReport) (logs : List Log) :
    (logs.foldl (fun r log => r.merge (p.readLog .empty log)) r).points =
      r.points ++ logs.flatMap fun log =>
        pointsOfLength (leadingDimension? (r.points ++ logs.flatMap p.pointsOf))
          (p.readLog .empty log).points := by
  induction logs generalizing r with
  | nil => simp
  | cons log rest ih =>
    rw [List.foldl_cons, ih, List.flatMap_cons, List.flatMap_cons, LogReport.points_merge,
      List.append_assoc]
    have hown := points_readLog p log
    have hlead : leadingDimension? (p.readLog .empty log).points = leadingDimension? (p.pointsOf log) := by
      rw [hown, leadingDimension?_pointsOfLength]
    -- the first point of the merged report is that of the logs read so far
    have hdimension : leadingDimension? (r.points ++ (pointsOfLength
          (leadingDimension? (r.points ++ (p.readLog .empty log).points))
          (p.readLog .empty log).points ++ rest.flatMap p.pointsOf)) =
        leadingDimension? (r.points ++ (p.pointsOf log ++ rest.flatMap p.pointsOf)) := by
      simp only [leadingDimension?_append]
      cases leadingDimension? r.points with
      | some d => rfl
      | none =>
        simp only [Option.none_or]
        rw [leadingDimension?_pointsOfLength, hlead]
    have hfiltered : pointsOfLength (leadingDimension? (r.points ++ (p.readLog .empty log).points))
          (p.readLog .empty log).points =
        pointsOfLength (leadingDimension? (r.points ++ (p.pointsOf log ++ rest.flatMap p.pointsOf)))
          (p.readLog .empty log).points := by
      simp only [leadingDimension?_append, hlead]
      cases leadingDimension? r.points with
      | some d => rfl
      | none =>
        cases hpoints : p.pointsOf log with
        | nil =>
          rw [hown, hpoints]
          rfl
        | cons v others => rfl
    rw [List.append_assoc, hdimension, hfiltered]

theorem points_separately (p : MarkerParser) (logs : List Log) :
    (p.separately logs).points = logs.flatMap fun log =>
      if leadingDimension? (p.pointsOf log) = p.dimension? logs then
        pointsOfLength (p.dimension? logs) (p.pointsOf log)
      else [] := by
  rw [separately, points_foldl_merge]
  simp only [points_readLog, pointsOfLength_pointsOfLength]
  rfl

/-- The places of all marker lines. -/
def markerPlaces (p : MarkerParser) (logs : List Log) : List SourceLine :=
  (logs.flatMap p.entries).map MarkerEntry.place

theorem places_together (p : MarkerParser) (logs : List Log) :
    (p.together logs).places.Perm (p.markerPlaces logs) := by
  rw [together, foldl_readLog_eq]
  exact LogReport.places_foldl_add .empty _

theorem places_foldl_merge (p : MarkerParser) (r : LogReport) (logs : List Log) :
    (logs.foldl (fun r log => r.merge (p.readLog .empty log)) r).places.Perm
      (r.places ++ p.markerPlaces logs) := by
  induction logs generalizing r with
  | nil => simp [markerPlaces]
  | cons log rest ih =>
    have hown : (p.readLog .empty log).places.Perm ((p.entries log).map MarkerEntry.place) := by
      rw [readLog_eq]
      exact LogReport.places_foldl_add .empty _
    rw [List.foldl_cons, markerPlaces, List.flatMap_cons, List.map_append, ← List.append_assoc]
    refine (ih _).trans (List.Perm.append_right _ ?_)
    exact (LogReport.places_merge r _).trans (hown.append_left _)

theorem places_separately (p : MarkerParser) (logs : List Log) :
    (p.separately logs).places.Perm (p.markerPlaces logs) :=
  places_foldl_merge p .empty logs

theorem foldl_merge_eq_separately {logs : List Log} {reports : List LogReport}
    (h : List.Forall₂ p.Reports logs reports) :
    reports.foldl LogReport.merge .empty = p.separately logs := by
  have hreports : reports = logs.map (p.readLog .empty) := by
    induction h with
    | nil => rfl
    | cons hreport _ ih => rw [List.map_cons, ← hreport.eq_readLog, ← ih]
  rw [hreports, List.foldl_map]
  rfl

/-- Pieces of lists that are shorter than others make up the same list only if they are the same. -/
theorem flatMap_eq_flatMap_iff {β γ : Type} {f g : β → List γ} {xs : List β}
    (h : ∀ x ∈ xs, (f x).Sublist (g x)) : xs.flatMap f = xs.flatMap g ↔ ∀ x ∈ xs, f x = g x := by
  induction xs with
  | nil => simp
  | cons x rest ih =>
    have hx := h x List.mem_cons_self
    have hrest := fun y hy => h y (List.mem_cons_of_mem x hy)
    rw [List.flatMap_cons, List.flatMap_cons, List.forall_mem_cons, ← ih hrest]
    constructor
    · intro heq
      have hlength : (f x).length = (g x).length := by
        have hsum := congrArg List.length heq
        have hle := hx.length_le
        have hle' : (rest.flatMap f).length ≤ (rest.flatMap g).length := by
          rw [List.length_flatMap, List.length_flatMap]
          exact List.sum_le_sum fun y hy => (hrest y hy).length_le
        rw [List.length_append, List.length_append] at hsum
        omega
      exact List.append_inj heq hlength
    · rintro ⟨heq, heq'⟩
      rw [heq, heq']

/-- Reports on logs that are merged in order agree with a single report on all logs, in the points and in
the places of the failures, iff every log that has points of the length of the very first point begins
with one. The merged report lacks the points of this length of all other logs. Both reports know of every
marker line. -/
theorem merge_agrees_iff {logs : List Log} {reports : List LogReport}
    (h : List.Forall₂ p.Reports logs reports) :
    ((reports.foldl LogReport.merge .empty).points = (p.together logs).points ∧
        ((reports.foldl LogReport.merge .empty).failures.map LineFailure.place).Perm
          ((p.together logs).failures.map LineFailure.place) ↔
      ∀ log ∈ logs, ∀ v ∈ p.pointsOf log, some v.values.length = p.dimension? logs →
        leadingDimension? (p.pointsOf log) = p.dimension? logs) ∧
    ((reports.foldl LogReport.merge .empty).points = logs.flatMap fun log =>
      if leadingDimension? (p.pointsOf log) = p.dimension? logs then
        pointsOfLength (p.dimension? logs) (p.pointsOf log)
      else []) ∧
    ((p.together logs).points = logs.flatMap fun log =>
      pointsOfLength (p.dimension? logs) (p.pointsOf log)) ∧
    (reports.foldl LogReport.merge .empty).places.Perm (p.markerPlaces logs) ∧
    (p.together logs).places.Perm (p.markerPlaces logs) := by
  rw [foldl_merge_eq_separately h]
  refine ⟨?_, points_separately p logs, points_together p logs, places_separately p logs,
    places_together p logs⟩
  have hpoints : (p.separately logs).points = (p.together logs).points ↔
      ∀ log ∈ logs, ∀ v ∈ p.pointsOf log, some v.values.length = p.dimension? logs →
        leadingDimension? (p.pointsOf log) = p.dimension? logs := by
    rw [points_separately, points_together, flatMap_eq_flatMap_iff]
    · refine forall₂_congr fun log _ => ?_
      by_cases hlead : leadingDimension? (p.pointsOf log) = p.dimension? logs
      · simp [hlead]
      · rw [if_neg hlead, eq_comm, pointsOfLength, List.filter_eq_nil_iff]
        simp [hlead]
    · intro log _
      split
      · exact List.Sublist.refl _
      · exact List.nil_sublist _
  rw [← hpoints]
  refine ⟨And.left, fun heq => ⟨heq, ?_⟩⟩
  -- what is no point is a failure, so equal points leave the same places
  have hplaces := (places_separately p logs).trans (places_together p logs).symm
  rw [LogReport.places, LogReport.places, heq] at hplaces
  exact (List.perm_append_left_iff _).mp hplaces

/-! ### Logs of different lengths -/

def planeText : String := "#### Best para[0]=1.0, [1]=2.0,\n"

/-- A text that begins with a point of another length. -/
def mixedText : String := "#### Best para[0]=5.0,\n#### Best para[0]=3.0, [1]=4.0,\n"

def mixedLogs : List Log := [.ofText "a" planeText, .ofText "b" mixedText]

def mixedReports : List LogReport := [standard.readText "a" planeText, standard.readText "b" mixedText]

theorem reports_mixedLogs : List.Forall₂ standard.Reports mixedLogs mixedReports :=
  .cons (.text _ _) (.cons (.text _ _) .nil)

theorem entries_planeText (source : String) :
    standard.entries (.ofText source planeText) = [.ok ⟨source, 1, [1.0, 2.0]⟩] := by
  have hlines : textLines planeText.toList = ["#### Best para[0]=1.0, [1]=2.0,".toList] := by
    decide
  have hfirst : standard.parseChars? "#### Best para[0]=1.0, [1]=2.0,".toList = some (.ok [1.0, 2.0]) :=
    parseChars?_of_ordered (by decide : _ = some "[0]=1.0, [1]=2.0,".toList) (by decide)
      (by simp) rfl
  simp only [entries, Log.ofText, hlines, entriesFrom, entry?, hfirst, Option.map_some]
  rfl

theorem pointsOf_planeText (source : String) :
    standard.pointsOf (.ofText source planeText) = [⟨source, 1, [1.0, 2.0]⟩] := by
  rw [pointsOf, entries_planeText]
  rfl

theorem entries_mixedText (source : String) :
    standard.entries (.ofText source mixedText) =
      [.ok ⟨source, 1, [5.0]⟩, .ok ⟨source, 2, [3.0, 4.0]⟩] := by
  have hlines : textLines mixedText.toList =
      ["#### Best para[0]=5.0,".toList, "#### Best para[0]=3.0, [1]=4.0,".toList] := by
    decide
  have hfirst : standard.parseChars? "#### Best para[0]=5.0,".toList = some (.ok [5.0]) :=
    parseChars?_of_ordered (by decide : _ = some "[0]=5.0,".toList) (by decide)
      (by simp) rfl
  have hsecond : standard.parseChars? "#### Best para[0]=3.0, [1]=4.0,".toList =
      some (.ok [3.0, 4.0]) :=
    parseChars?_of_ordered (by decide : _ = some "[0]=3.0, [1]=4.0,".toList) (by decide)
      (by simp) rfl
  simp only [entries, Log.ofText, hlines, entriesFrom, entry?, hfirst, hsecond, Option.map_some]
  rfl

theorem pointsOf_mixedText (source : String) :
    standard.pointsOf (.ofText source mixedText) = [⟨source, 1, [5.0]⟩, ⟨source, 2, [3.0, 4.0]⟩] := by
  rw [pointsOf, entries_mixedText]
  rfl

/-- Merging loses the second point of the second log. -/
theorem mixedLogs_disagree :
    (mixedReports.foldl LogReport.merge .empty).points.map BestPoint.place = [("a", 1)] ∧
      (standard.together mixedLogs).points.map BestPoint.place = [("a", 1), ("b", 2)] := by
  rw [foldl_merge_eq_separately reports_mixedLogs, points_separately, points_together, dimension?]
  simp [mixedLogs, pointsOf_planeText, pointsOf_mixedText, leadingDimension?, pointsOfLength,
    BestPoint.place]

/-- The two ways to read these logs do not agree, since the second log does not begin with the length that
counts. -/
theorem mixedLogs_merge_agrees_iff :
    List.Forall₂ standard.Reports mixedLogs mixedReports ∧
    ¬ ((mixedReports.foldl LogReport.merge .empty).points = (standard.together mixedLogs).points ∧
      ((mixedReports.foldl LogReport.merge .empty).failures.map LineFailure.place).Perm
        ((standard.together mixedLogs).failures.map LineFailure.place)) := by
  refine ⟨reports_mixedLogs, (merge_agrees_iff reports_mixedLogs).1.not.mpr ?_⟩
  simp [dimension?, mixedLogs, pointsOf_planeText, pointsOf_mixedText, leadingDimension?]

end MarkerParser

/-! ### The command for clustering -/

theorem reports_of_report {file : LogFile} {report : LogReport} (h : file.report = .ok report) :
    ∃ log, log.source = file.path ∧ MarkerParser.standard.Reports log report := by
  rw [LogFile.report] at h
  split at h
  · cases h
  · cases h
  · next bytes _ =>
    split at h
    · next read hread =>
      cases h
      have hread' := hread
      rw [MarkerParser.readBytes?, MarkerParser.readByteLines?_eq, Option.map_eq_some_iff] at hread'
      obtain ⟨lines, hlines, -⟩ := hread'
      exact ⟨⟨file.path, lines⟩, rfl, .bytes (by rw [Log.ofBytes?, hlines]; rfl) hread⟩
    · cases h

theorem readLogsAfter_eq_ok {merged result : LogReport} {files : List LogFile}
    (h : readLogsAfter merged files = .ok result) :
    ∃ logs reports, logs.map Log.source = files.map LogFile.path ∧
      List.Forall₂ MarkerParser.standard.Reports logs reports ∧
        result = reports.foldl LogReport.merge merged := by
  induction files generalizing merged with
  | nil =>
    cases h
    exact ⟨[], [], rfl, .nil, rfl⟩
  | cons file rest ih =>
    rw [readLogsAfter] at h
    split at h
    · next report hreport =>
      obtain ⟨logs, reports, hsources, hreports, hresult⟩ := ih h
      obtain ⟨log, hsource, hlog⟩ := reports_of_report hreport
      refine ⟨log :: logs, report :: reports, ?_, .cons hlog hreports, hresult⟩
      rw [List.map_cons, List.map_cons, hsource, hsources]
    · cases h

/-- What the command reads from logs is what their own reports come to when they are merged. -/
theorem readLogs_eq_ok {result : LogReport} {files : List LogFile} (h : readLogs files = .ok result) :
    ∃ logs reports, logs.map Log.source = files.map LogFile.path ∧
      List.Forall₂ MarkerParser.standard.Reports logs reports ∧
        result = reports.foldl LogReport.merge .empty :=
  readLogsAfter_eq_ok h

end DelayTuning
