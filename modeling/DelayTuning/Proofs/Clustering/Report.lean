import DelayTuning.Proofs.Clustering.Partition
import DelayTuning.Proofs.Decimal.Fixed
import DelayTuning.Proofs.Log.Diagnostics

/-!
# What is written about the points of logs

The points of a report that has been put together have one length, so they are clustered unless no cluster or
more clusters than points are wanted. Either way the failures and their number are written first. The table that
follows has a row for each cluster, whose line shows the number of the cluster, its size and its centre.

## Main definitions

- `ShowsRow`: what a line of the table shows
- `ClusterReport.Tabulates`: the rows of the table on the points of a report

## Main statements

- `showsRow_rowText`: the line of a row shows it
- `Clustering.exists_table`: the table of a well-formed clustering
- `ClusterReport.isSingleLine_out`: what is written are single lines
- `ClusterReport.ofLogs_written`: all that is written
-/

namespace DelayTuning

/-! ### The table -/

/-- The sizes of clusters that all labels name add up to the number of labels. -/
theorem sum_count_labels {labels : List ℕ} {k : ℕ} (h : ∀ label ∈ labels, label < k) :
    ((List.range k).map fun j => labels.count j).sum = labels.length := by
  have hsum : ∑ j ∈ Finset.range k, (labels : Multiset ℕ).count j = labels.length :=
    Multiset.sum_count_eq_card fun label hlabel => Finset.mem_range.mpr (h label hlabel)
  simpa [Finset.sum, Finset.range, Multiset.range] using hsum

namespace Clustering

variable {points : List (Point Float)} {k dimension : ℕ} {c : Clustering Float}

theorem sizes?_eq (h : c.partition.WellFormed points k dimension) :
    c.sizes? = some ((List.range k).map fun j => c.labels.count j) := by
  have hsize : c.size = k := h.count
  have hbounded : (c.labels.all fun label => decide (label < c.size)) = true := by
    rw [List.all_eq_true, hsize]
    exact fun label hlabel => decide_eq_true (h.bounded label hlabel)
  rw [sizes?, if_pos hbounded, hsize]

theorem length_reportCentres (h : c.partition.WellFormed points k dimension) :
    c.reportCentres.length = k := by
  rw [reportCentres, roundedCentres, List.length_map]
  exact h.count

/-- Rounding keeps the dimension of the centres. -/
theorem length_of_mem_reportCentres (h : c.partition.WellFormed points k dimension) :
    ∀ centre ∈ c.reportCentres, centre.length = dimension := by
  refine List.forall_mem_map.mpr ?_
  intro centre hcentre
  rw [List.length_map]
  exact h.dimension centre hcentre

/-- The table of a well-formed clustering has a row for each cluster, in order, with its rounded centre and with
the number of the points that have the label. -/
theorem exists_table (h : c.partition.WellFormed points k dimension) :
    ∃ rows, ClusterTable.ofClustering? c = some ⟨rows, c.precision.toNat⟩ ∧
      rows.map ClusterRow.cluster = List.range k ∧
      rows.map ClusterRow.centre = c.reportCentres ∧
      rows.map ClusterRow.size = (List.range k).map fun j => c.labels.count j := by
  have hlength : ((List.range k).map fun j => c.labels.count j).length = c.reportCentres.length := by
    rw [List.length_map, List.length_range, length_reportCentres h]
  rw [ClusterTable.ofClustering?, sizes?_eq h]
  refine ⟨_, rfl, ?_, ?_, ?_⟩
  · rw [List.map_map]
    refine (List.map_congr_left (g := Prod.snd) fun _ _ => rfl).trans ?_
    rw [List.zipIdx_map_snd, List.length_zip, hlength, Nat.min_self, length_reportCentres h,
      List.range_eq_range']
  · rw [List.map_map]
    refine (List.map_congr_left (g := Prod.snd ∘ Prod.fst) fun _ _ => rfl).trans ?_
    rw [← List.map_map, List.zipIdx_map_fst, List.map_snd_zip hlength.ge]
  · rw [List.map_map]
    refine (List.map_congr_left (g := Prod.fst ∘ Prod.fst) fun _ _ => rfl).trans ?_
    rw [← List.map_map, List.zipIdx_map_fst, List.map_fst_zip hlength.le]

end Clustering

/-! ### What the lines show -/

/-- A line of the table shows the number of a cluster, its size and its centre, each coordinate with `places` digits
after the point. -/
def ShowsRow (places : ℕ) (row : ClusterRow) (line : String) : Prop :=
  ∃ coordinates, List.Forall₂ (ShowsFixed places) row.centre coordinates ∧
    line = toString row.cluster ++ ", " ++ toString row.size ++ ", [" ++ ", ".intercalate coordinates ++ "]"

theorem showsRow_rowText (places : ℕ) (row : ClusterRow) :
    ShowsRow places row (ClusterTable.rowText places row) := by
  have hcoordinates : List.Forall₂ (ShowsFixed places) row.centre (row.centre.map (fixedText places)) := by
    rw [List.forall₂_map_right_iff, List.forall₂_same]
    exact fun x _ => showsFixed_fixedText places x
  exact ⟨_, hcoordinates, rfl⟩

theorem ClusterReport.diagnosticLine_eq (f : LineFailure) :
    ClusterReport.diagnosticLine f =
      "unparsed " ++ f.source ++ ":" ++ toString f.line ++ ": " ++ f.fault.message := by
  simp only [diagnosticLine, LineFailure.message, String.append_assoc]
  rfl

/-! ### Single lines -/

theorem IsSingleLine.intercalate {separator : String} (hseparator : IsSingleLine separator)
    {parts : List String} (h : ∀ part ∈ parts, IsSingleLine part) :
    IsSingleLine (separator.intercalate parts) := by
  have hnotFeed : ∀ {s : String}, IsSingleLine s → ∀ c ∈ s.toList, c ≠ '\n' :=
    fun hs c hc heq => hs (heq ▸ hc)
  rw [IsSingleLine, String.toList_intercalate]
  intro hmem
  exact forall_mem_intercalate (hnotFeed hseparator)
    (List.forall_mem_map.mpr fun part hpart => hnotFeed (h part hpart)) _ hmem rfl

theorem isSingleLine_fixedText (places : ℕ) (x : Float) : IsSingleLine (fixedText places x) := by
  rw [IsSingleLine, fixedText, String.toList_ofList]
  intro hmem
  obtain hother | hdigit := mem_fixedChars hmem
  · exact absurd hother (by decide)
  · cases hdigit

theorem isSingleLine_rowText (places : ℕ) (row : ClusterRow) :
    IsSingleLine (ClusterTable.rowText places row) := by
  have hcomma : IsSingleLine ", " := by decide
  have hopen : IsSingleLine ", [" := by decide
  have hclose : IsSingleLine "]" := by decide
  have hnumbers := ((isSingleLine_toString row.cluster).append hcomma).append
    (isSingleLine_toString row.size)
  have hcentre : IsSingleLine (", ".intercalate (row.centre.map (fixedText places))) :=
    hcomma.intercalate (List.forall_mem_map.mpr fun x _ => isSingleLine_fixedText places x)
  exact ((hnumbers.append hopen).append hcentre).append hclose

namespace ClusterReport

theorem isSingleLine_countLine (count : ℕ) : IsSingleLine (countLine count) := by
  have hunparsed : IsSingleLine "unparsed lines: " := by decide
  exact hunparsed.append (isSingleLine_toString count)

theorem isSingleLine_of_mem_tableLines? {c : Clustering Float} {lines : List String}
    (h : tableLines? c = some lines) : ∀ line ∈ lines, IsSingleLine line := by
  rw [tableLines?] at h
  split at h
  · next table _ =>
    split at h
    · cases h
    · cases h
      have hheader : IsSingleLine ClusterTable.header := by decide
      refine List.forall_mem_cons.mpr ⟨hheader, ?_⟩
      exact List.forall_mem_map.mpr fun row _ => isSingleLine_rowText table.places row
  · cases h

/-- Everything that is written is a single line. -/
theorem isSingleLine_out (logs : LogReport) (config : ClusteringConfig) (k : ℕ) :
    ∀ line ∈ (ofLogs logs config k).out, IsSingleLine line := by
  have hcount := isSingleLine_countLine logs.unparsedCount
  rw [ofLogs]
  split
  · exact List.forall_mem_singleton.mpr hcount
  · next clustering _ =>
    split
    · next lines hlines =>
      exact List.forall_mem_cons.mpr ⟨hcount, isSingleLine_of_mem_tableLines? hlines⟩
    · exact List.forall_mem_singleton.mpr hcount

/-! ### The report -/

/-- The rows of the table on the points of a report that have been clustered. They are numbered from zero, and
each has the rounded centre of its cluster, with a coordinate for each coordinate of the points. The size of a
row is the number of the points in its cluster, so the sizes add up to the number of all points. -/
structure Tabulates (report : LogReport) (clustering : Clustering Float) (k : ℕ) (rows : List ClusterRow) :
    Prop where
  count : rows.length = k
  numbers : rows.map ClusterRow.cluster = List.range k
  centres : rows.map ClusterRow.centre =
    clustering.centres.map fun centre => centre.map (roundToPlaces clustering.precision)
  coordinates : ∀ row ∈ rows, ∀ v ∈ report.points, row.centre.length = v.values.length
  sizes : rows.map ClusterRow.size = (List.range k).map fun j => clustering.labels.count j
  total : (rows.map ClusterRow.size).sum = report.points.length

/-- The points of a clustering have a table, and its lines show the rows. -/
theorem exists_tableLines {report : LogReport} {k dimension : ℕ} {c : Clustering Float}
    (h : c.partition.WellFormed report.values k dimension)
    (hdimension : ∀ v ∈ report.points, v.values.length = dimension)
    (hplaces : c.precision.toNat ≤ ClusterTable.maxPlaces) :
    ∃ rows lines, tableLines? c = some (ClusterTable.header :: lines) ∧
      List.Forall₂ (ShowsRow c.precision.toNat) rows lines ∧ Tabulates report c k rows := by
  obtain ⟨rows, htable, hnumbers, hcentres, hsizes⟩ := c.exists_table h
  have hcount := congrArg List.length hnumbers
  rw [List.length_map, List.length_range] at hcount
  have hlabels : c.labels.length = report.points.length := by
    rw [← List.length_map BestPoint.values]
    exact h.labels
  have hbounded : ∀ label ∈ c.labels, label < k := h.bounded
  refine ⟨rows, rows.map (ClusterTable.rowText c.precision.toNat), ?_, ?_,
    ⟨hcount, hnumbers, hcentres, ?_, hsizes, ?_⟩⟩
  · have hfine : (ClusterTable.mk rows c.precision.toNat).tooFine = false := by
      rw [ClusterTable.tooFine, decide_eq_false (Nat.not_lt.mpr hplaces)]
      rfl
    rw [tableLines?, htable]
    simp only [hfine, Bool.false_eq_true, if_false]
    rfl
  · rw [List.forall₂_map_right_iff, List.forall₂_same]
    exact fun row _ => showsRow_rowText c.precision.toNat row
  · intro row hrow v hv
    have hcentre : row.centre ∈ c.reportCentres := hcentres ▸ List.mem_map_of_mem hrow
    rw [Clustering.length_of_mem_reportCentres h _ hcentre, hdimension v hv]
  · rw [hsizes, sum_count_labels hbounded, hlabels]

section Written

variable {report : LogReport} {config : ClusteringConfig} {k : ℕ}

theorem diagnostics_ofLogs : (ofLogs report config k).diagnostics = report.failures.map diagnosticLine := by
  rw [ofLogs]
  split
  · rfl
  · split <;> rfl

/-- Points that cannot be clustered have no table. -/
theorem ofLogs_of_clusteringFault? {cause : TuneError}
    (h : clusteringFault? report.values k = some cause) :
    (ofLogs report config k).out = [countLine report.unparsedCount] ∧
      (ofLogs report config k).result = .error (.clustering report.points.length k cause) := by
  rw [ofLogs, cluster, h]
  exact ⟨rfl, rfl⟩

theorem ofLogs_of_tableLines? {clustering : Clustering Float} {lines : List String}
    (hcluster : cluster config report.values k = .ok clustering)
    (hlines : tableLines? clustering = some lines) :
    (ofLogs report config k).out = countLine report.unparsedCount :: lines ∧
      (ofLogs report config k).result = .ok clustering := by
  rw [ofLogs, hcluster]
  simp only [hlines, and_self]

end Written

/-- All that is written about a report that comes from reading logs and merging, for any clustering whose
precision can be written:
there is a diagnostic for each failure, in order, with the source, the number of the line and the fault, and each is
a single line if the names of the logs are;
all other lines are single lines, and the first of them is the number of failures;
without clusters, or with more clusters than points, it stays the only one and that is the reason;
otherwise the points are clustered, the header follows, and after it a line for each cluster, which shows its
row. -/
theorem ofLogs_written {p : MarkerParser} {logs : List Log} {report : LogReport}
    (h : p.Assembles logs report) {config : ClusteringConfig} (hplaces : config.precision.toNat ≤ 65535)
    (k : ℕ) :
    let written := ofLogs report config k
    let count := "unparsed lines: " ++ toString report.failures.length
    let n := report.points.length
    (written.diagnostics = report.failures.map fun f =>
      "unparsed " ++ f.source ++ ":" ++ toString f.line ++ ": " ++ f.fault.message) ∧
    ((∀ log ∈ logs, IsSingleLine log.source) → ∀ line ∈ written.diagnostics, IsSingleLine line) ∧
    (∀ line ∈ written.out, IsSingleLine line) ∧
    (k = 0 → written.out = [count] ∧
      written.result = .error (.clustering n k (.invalidRequest .noClusters))) ∧
    (n < k → written.out = [count] ∧
      written.result = .error (.clustering n k (.insufficientData n k))) ∧
    (0 < k → k ≤ n → ∃ clustering rows lines,
      cluster config report.values k = .ok clustering ∧ written.result = .ok clustering ∧
      written.out = count :: "cluster, size, center" :: lines ∧
      List.Forall₂ (ShowsRow config.precision.toNat) rows lines ∧ Tabulates report clustering k rows) := by
  intro written count n
  have hdiagnostics : written.diagnostics = report.failures.map diagnosticLine := diagnostics_ofLogs
  obtain ⟨dimension, hdimension⟩ := h.uniform.exists_length_eq
  have hvalues : ∀ x ∈ report.values, x.length = dimension := List.forall_mem_map.mpr hdimension
  have hlength : report.values.length = n := List.length_map _
  have hfault := clusteringFault?_eq hvalues k
  rw [hlength] at hfault
  refine ⟨?_, ?_, isSingleLine_out report config k, ?_, ?_, ?_⟩
  · rw [hdiagnostics]
    exact List.map_congr_left fun f _ => diagnosticLine_eq f
  · intro hsources
    rw [hdiagnostics]
    exact List.forall_mem_map.mpr (h.isSingleLine_diagnosticLine hsources)
  · intro hk
    rw [if_pos hk] at hfault
    exact ofLogs_of_clusteringFault? hfault
  · intro hn
    rw [if_neg (Nat.ne_of_gt (Nat.zero_lt_of_lt hn)), if_pos hn] at hfault
    exact ofLogs_of_clusteringFault? hfault
  · intro hk hn
    obtain ⟨clustering, hcluster, hwellFormed, hprecision⟩ :=
      exists_cluster config hvalues hk (hlength.symm ▸ hn)
    rw [← hprecision] at hplaces ⊢
    obtain ⟨rows, lines, hlines, hshows, htabulates⟩ :=
      exists_tableLines hwellFormed hdimension hplaces
    obtain ⟨hout, hresult⟩ := ofLogs_of_tableLines? hcluster hlines
    exact ⟨clustering, rows, lines, hcluster, hresult, hout, hshows, htabulates⟩

/-! ### Merged logs -/

def farText : String := "#### Best para[0]=5.0, [1]=6.0,\n"

theorem entries_farText (source : String) :
    MarkerParser.standard.entries (.ofText source farText) = [.ok ⟨source, 1, [5.0, 6.0]⟩] := by
  have hlines : textLines farText.toList = ["#### Best para[0]=5.0, [1]=6.0,".toList] := by
    decide
  have hfirst : MarkerParser.standard.parseChars? "#### Best para[0]=5.0, [1]=6.0,".toList =
      some (.ok [5.0, 6.0]) :=
    parseChars?_of_ordered (by decide : _ = some "[0]=5.0, [1]=6.0,".toList) (by decide)
      (by simp) rfl
  simp only [MarkerParser.entries, Log.ofText, hlines, MarkerParser.entriesFrom, MarkerParser.entry?, hfirst,
    Option.map_some]
  rfl

def mergedLogs : List Log :=
  MarkerParser.mixedLogs ++ [.ofText "c" farText, .ofText "d" MarkerParser.planeText]

/-- The reports on logs of different lengths and on two more logs, merged. -/
def mergedReport : LogReport :=
  (MarkerParser.mixedReports ++ [MarkerParser.standard.readText "c" farText,
    MarkerParser.standard.readText "d" MarkerParser.planeText]).foldl LogReport.merge .empty

theorem assembles_mergedReport : MarkerParser.standard.Assembles mergedLogs mergedReport :=
  MarkerParser.Assembles.empty.foldl_merge
    (List.rel_append MarkerParser.reports_mixedLogs (.cons (.text _ _) (.cons (.text _ _) .nil)))

/-- Neither point of the second log stays: the first has not the length that counts, the second not that of the
first. -/
theorem mergedReport_eq :
    mergedReport = {
      points := [⟨"a", 1, [1.0, 2.0]⟩, ⟨"c", 1, [5.0, 6.0]⟩, ⟨"d", 1, [1.0, 2.0]⟩]
      failures := [⟨"b", 1, .dimensionMismatch 2 1⟩, ⟨"b", 2, .dimensionMismatch 1 2⟩] } := by
  have hread : ∀ source text, MarkerParser.standard.readText source text =
      (MarkerParser.standard.entries (.ofText source text)).foldl LogReport.add .empty := fun source text =>
    MarkerParser.readLog_eq _ _ (.ofText source text)
  rw [mergedReport, MarkerParser.mixedReports, hread, hread, hread, hread, MarkerParser.entries_planeText,
    MarkerParser.entries_planeText, MarkerParser.entries_mixedText, entries_farText]
  rfl

/-- Two failures, and three points in two clusters. -/
theorem mergedReport_written :
    MarkerParser.standard.Assembles mergedLogs mergedReport ∧
    ClusteringConfig.standard.precision.toNat ≤ 65535 ∧
    (ofLogs mergedReport .standard 2).diagnostics =
      ["unparsed b:1: expected 2 values, found 1", "unparsed b:2: expected 1 values, found 2"] ∧
    (ofLogs mergedReport .standard 2).out =
      ["unparsed lines: 2", "cluster, size, center", "0, 1, [5.00, 6.00]", "1, 2, [1.00, 2.00]"] ∧
    ∃ clustering rows, (ofLogs mergedReport .standard 2).result = .ok clustering ∧
      List.Forall₂ (ShowsRow 2) rows ["0, 1, [5.00, 6.00]", "1, 2, [1.00, 2.00]"] ∧
      rows.map ClusterRow.cluster = [0, 1] ∧ (∀ row ∈ rows, row.centre.length = 2) ∧
      (rows.map ClusterRow.size).sum = 3 := by
  have hplaces : ClusteringConfig.standard.precision.toNat ≤ 65535 := by decide
  have hpoints : mergedReport.points.length = 3 := by
    rw [mergedReport_eq]
    rfl
  obtain ⟨hdiagnostics, -, -, -, -, hclustered⟩ := ofLogs_written assembles_mergedReport hplaces 2
  obtain ⟨clustering, rows, lines, -, hresult, hout, hshows, htabulates⟩ :=
    hclustered two_pos (by rw [hpoints]; decide)
  have hlines : (ofLogs mergedReport .standard 2).out =
      ["unparsed lines: 2", "cluster, size, center", "0, 1, [5.00, 6.00]", "1, 2, [1.00, 2.00]"] := by
    rw [mergedReport_eq]
    decide +kernel
  rw [hlines] at hout
  obtain ⟨-, rfl⟩ := List.cons.inj (List.cons.inj hout).2
  refine ⟨assembles_mergedReport, hplaces, ?_, hlines, clustering, rows, hresult, hshows,
    htabulates.numbers, ?_, htabulates.total.trans hpoints⟩
  · rw [hdiagnostics, mergedReport_eq]
    decide
  · intro row hrow
    have hfirst : (⟨"a", 1, [1.0, 2.0]⟩ : BestPoint) ∈ mergedReport.points := by
      rw [mergedReport_eq]
      exact List.mem_cons_self
    exact htabulates.coordinates row hrow _ hfirst

end ClusterReport

end DelayTuning
