import DelayTuning.Circuit.Stage
import DelayTuning.Proofs.Clustering.Report

/-!
# Metrics from records

What is recorded for a stage and a circuit is seen in three ways: by looking it up, in the comparisons of delays at
the stage, and in the table of all stages. All of them show the last record for the stage and the circuit, whatever
has been recorded in between for others, and the comparisons and the table have the circuits of the suite in its
order, whatever names have been recorded. So the order of records for different stages or circuits does not matter.

## Main definitions

- `StageRecord`, `StageMetrics.ofRecords`: a record, and the metrics of some records
- `IsRecorded`, `lastMetrics?`: what has been recorded for a stage and a circuit
- `StageMetrics.Keeps`: metrics that keep the last records
- `SameHistories`: records in orders that differ for different stages or circuits only
- `IsUnbroken`: a text that is a line

## Main statements

- `StageMetrics.Keeps.insert`, `StageMetrics.keeps_ofRecords`: the last records are kept
- `StageMetrics.Keeps.map_circuit_comparisons`, `StageMetrics.Keeps.stageLines_eq`: the comparisons and the table
- `StageMetrics.ofRecords_shows`: what is shown of any records
-/

namespace DelayTuning

/-! ### Records -/

/-- Metrics that are recorded for a circuit at a stage. -/
structure StageRecord where
  stage : ℕ
  circuit : String
  metrics : CircuitMetrics

/-- The records for a stage and a circuit, in order. -/
def recordsFor (records : List StageRecord) (stage : ℕ) (circuit : String) : List StageRecord :=
  records.filter fun r => r.stage = stage ∧ r.circuit = circuit

/-- The metrics of the last record for a stage and a circuit. -/
def lastMetrics? (records : List StageRecord) (stage : ℕ) (circuit : String) : Option CircuitMetrics :=
  (recordsFor records stage circuit).getLast?.map StageRecord.metrics

def IsRecorded (records : List StageRecord) (stage : ℕ) (circuit : String) : Prop :=
  ∃ r ∈ records, r.stage = stage ∧ r.circuit = circuit

instance instDecidableIsRecorded (records : List StageRecord) (stage : ℕ) (circuit : String) :
    Decidable (IsRecorded records stage circuit) :=
  inferInstanceAs (Decidable (∃ r ∈ records, r.stage = stage ∧ r.circuit = circuit))

/-- Records in two orders in which those for the same stage and circuit are in the same order. -/
def SameHistories (records records' : List StageRecord) : Prop :=
  ∀ stage circuit, recordsFor records stage circuit = recordsFor records' stage circuit

section Records

variable {records records' : List StageRecord} {stage : ℕ} {circuit : String}

theorem recordsFor_concat (records : List StageRecord) (r : StageRecord) (stage : ℕ) (circuit : String) :
    recordsFor (records ++ [r]) stage circuit =
      recordsFor records stage circuit ++ if r.stage = stage ∧ r.circuit = circuit then [r] else [] := by
  rw [recordsFor, List.filter_append, recordsFor]
  congr 1
  split_ifs with h <;> simp [h]

theorem lastMetrics?_concat (records : List StageRecord) (r : StageRecord) (stage : ℕ) (circuit : String) :
    lastMetrics? (records ++ [r]) stage circuit =
      if r.stage = stage ∧ r.circuit = circuit then some r.metrics else lastMetrics? records stage circuit := by
  rw [lastMetrics?, recordsFor_concat]
  split_ifs with h
  · rw [List.getLast?_concat, Option.map_some]
  · rw [List.append_nil, lastMetrics?]

theorem isRecorded_iff : IsRecorded records stage circuit ↔ recordsFor records stage circuit ≠ [] := by
  rw [IsRecorded, recordsFor, ne_eq, List.filter_eq_nil_iff]
  simp

theorem isSome_lastMetrics?_iff : (lastMetrics? records stage circuit).isSome ↔ IsRecorded records stage circuit := by
  rw [lastMetrics?, Option.isSome_map, List.getLast?_isSome, isRecorded_iff]

theorem SameHistories.lastMetrics? (h : SameHistories records records') (stage : ℕ) (circuit : String) :
    lastMetrics? records stage circuit = lastMetrics? records' stage circuit := by
  rw [DelayTuning.lastMetrics?, DelayTuning.lastMetrics?, h stage circuit]

theorem SameHistories.exists_stage_iff (h : SameHistories records records') (stage : ℕ) :
    (∃ r ∈ records, r.stage = stage) ↔ ∃ r ∈ records', r.stage = stage := by
  have hrecorded : ∀ rs : List StageRecord,
      (∃ r ∈ rs, r.stage = stage) ↔ ∃ circuit, recordsFor rs stage circuit ≠ [] := by
    intro rs
    simp only [← isRecorded_iff, IsRecorded]
    exact ⟨fun ⟨r, hr, hstage⟩ => ⟨r.circuit, r, hr, hstage, rfl⟩,
      fun ⟨circuit, r, hr, hstage, _⟩ => ⟨r, hr, hstage⟩⟩
  rw [hrecorded, hrecorded]
  simp only [h stage]

/-- Two records one after the other, for different stages or circuits, can be exchanged. -/
theorem sameHistories_swap {r r' : StageRecord} (h : ¬(r.stage = r'.stage ∧ r.circuit = r'.circuit))
    (earlier later : List StageRecord) :
    SameHistories (earlier ++ r :: r' :: later) (earlier ++ r' :: r :: later) := by
  intro stage circuit
  rw [recordsFor, recordsFor, List.filter_append, List.filter_append]
  congr 1
  by_cases hr : r.stage = stage ∧ r.circuit = circuit
  · have hr' : ¬(r'.stage = stage ∧ r'.circuit = circuit) :=
      fun hr' => h ⟨hr.1.trans hr'.1.symm, hr.2.trans hr'.2.symm⟩
    simp [hr, hr']
  · simp [List.filter_cons, hr]

end Records

/-! ### Unbroken lines -/

/-- A text without line feeds and carriage returns. -/
def IsUnbroken (s : String) : Prop :=
  '\n' ∉ s.toList ∧ '\r' ∉ s.toList

instance instDecidableIsUnbroken (s : String) : Decidable (IsUnbroken s) :=
  inferInstanceAs (Decidable ('\n' ∉ s.toList ∧ '\r' ∉ s.toList))

theorem IsUnbroken.isPlainLine {s : String} (h : IsUnbroken s) : IsPlainLine '\n' '\r' s.toList :=
  ⟨h.1, fun hlast => h.2 (List.mem_of_getLast? hlast)⟩

theorem IsUnbroken.append {s t : String} (hs : IsUnbroken s) (ht : IsUnbroken t) : IsUnbroken (s ++ t) := by
  rw [IsUnbroken, String.toList_append, List.mem_append, List.mem_append, not_or, not_or]
  exact ⟨⟨hs.1, ht.1⟩, hs.2, ht.2⟩

theorem isUnbroken_toString (n : ℕ) : IsUnbroken (toString n) := by
  have hdigits : ∀ c, c.isDigit = false → c ∉ (toString n).toList := by
    rw [Nat.toString_eq_repr, Nat.toList_repr]
    exact fun c hc hmem => ne_of_isDigit (isDigit_of_mem_digitChars hmem) hc rfl
  exact ⟨hdigits _ (by decide), hdigits _ (by decide)⟩

theorem isUnbroken_fixedText (places : ℕ) (x : Float) : IsUnbroken (fixedText places x) := by
  have hnumber : ∀ c ∉ ['-', '.', 'N', 'a', 'i', 'n', 'f'], c.isDigit = false → c ∉ (fixedText places x).toList := by
    rw [fixedText, String.toList_ofList]
    intro c hother hc hmem
    obtain hmem | hdigit := mem_fixedChars hmem
    · exact hother hmem
    · exact ne_of_isDigit hdigit hc rfl
  exact ⟨hnumber _ (by decide) (by decide), hnumber _ (by decide) (by decide)⟩

/-! ### What is kept -/

namespace StageMetrics

/-- The metrics of records, made one after the other. -/
def ofRecords (suite : Suite) (records : List StageRecord) : StageMetrics :=
  records.foldl (fun s r => s.insert r.stage r.circuit r.metrics) (empty suite)

theorem ofRecords_concat (suite : Suite) (records : List StageRecord) (r : StageRecord) :
    ofRecords suite (records ++ [r]) = (ofRecords suite records).insert r.stage r.circuit r.metrics :=
  List.foldl_concat ..

@[simp]
theorem suite_ofRecords (suite : Suite) (records : List StageRecord) : (ofRecords suite records).suite = suite := by
  induction records using List.reverseRecOn with
  | nil => rfl
  | append_singleton records r ih =>
    rw [ofRecords_concat]
    exact ih

/-- A new record is the one that is looked up, and no other is. -/
theorem get?_insert (s : StageMetrics) (stage : ℕ) (circuit : String) (metrics : CircuitMetrics) (stage' : ℕ)
    (circuit' : String) :
    (s.insert stage circuit metrics).get? stage' circuit' =
      if stage = stage' ∧ circuit = circuit' then some metrics else s.get? stage' circuit' := by
  rw [get?, stage?, insert, Std.TreeMap.getElem?_insert]
  by_cases hstage : stage = stage'
  · subst hstage
    rw [if_pos (by simp), Option.bind_some, Std.TreeMap.getElem?_insert, Std.TreeMap.getD_eq_getD_getElem?]
    by_cases hcircuit : circuit = circuit'
    · rw [if_pos (by simpa using hcircuit), if_pos ⟨rfl, hcircuit⟩]
    · rw [if_neg (by simpa using hcircuit), if_neg fun h => hcircuit h.2, get?, stage?]
      -- The stage may be new, and then there was no other circuit at it.
      cases s.table[stage]? with
      | none => exact Std.TreeMap.getElem?_emptyc
      | some circuits => rfl
  · rw [if_neg (by simpa using hstage), if_neg fun h => hstage h.1, get?, stage?]

theorem mem_stages_insert_iff (s : StageMetrics) (stage : ℕ) (circuit : String) (metrics : CircuitMetrics)
    (stage' : ℕ) : stage' ∈ (s.insert stage circuit metrics).stages ↔ stage = stage' ∨ stage' ∈ s.stages := by
  rw [stages, stages, insert, Std.TreeMap.mem_keys, Std.TreeMap.mem_keys, Std.TreeMap.mem_insert,
    Std.LawfulEqCmp.compare_eq_iff_eq]

theorem pairwise_stages (s : StageMetrics) : s.stages.Pairwise (· < ·) :=
  Std.TreeMap.ordered_keys.imp Nat.compare_eq_lt.mp

/-- For each stage and circuit the metrics of the last record are kept, and nothing else. -/
structure Keeps (s : StageMetrics) (records : List StageRecord) : Prop where
  get?_eq : ∀ stage circuit, s.get? stage circuit = lastMetrics? records stage circuit
  mem_stages_iff : ∀ stage, stage ∈ s.stages ↔ ∃ r ∈ records, r.stage = stage

theorem Keeps.empty (suite : Suite) : (empty suite).Keeps [] where
  get?_eq _ _ := rfl
  mem_stages_iff stage := by simp [stages, StageMetrics.empty]

theorem Keeps.insert {s : StageMetrics} {records : List StageRecord} (h : s.Keeps records) (r : StageRecord) :
    (s.insert r.stage r.circuit r.metrics).Keeps (records ++ [r]) where
  get?_eq stage circuit := by rw [get?_insert, lastMetrics?_concat, h.get?_eq]
  mem_stages_iff stage := by
    rw [mem_stages_insert_iff, h.mem_stages_iff]
    simp [or_comm]

/-- The last records are kept, in whatever order they come. -/
theorem keeps_ofRecords (suite : Suite) (records : List StageRecord) : (ofRecords suite records).Keeps records := by
  induction records using List.reverseRecOn with
  | nil => exact Keeps.empty suite
  | append_singleton records r ih =>
    rw [ofRecords_concat]
    exact ih.insert r

/-! ### Comparisons -/

section Views

variable {s s' : StageMetrics} {records records' : List StageRecord}

/-- What is compared at a stage are the circuits of the suite with metrics, in its order. -/
theorem map_circuit_comparisons (s : StageMetrics) (stage : ℕ) :
    (s.comparisons stage).map DelayComparison.circuit =
      s.suite.circuits.filter fun circuit => (s.get? stage circuit).isSome := by
  rw [comparisons, List.map_filterMap, ← List.filterMap_eq_filter]
  refine List.filterMap_congr fun circuit _ => ?_
  cases hget : s.get? stage circuit with
  | none => simp [Option.guard, hget]
  | some m => simp [Option.guard, hget]

theorem Keeps.map_circuit_comparisons (h : s.Keeps records) (stage : ℕ) :
    (s.comparisons stage).map DelayComparison.circuit =
      s.suite.circuits.filter fun circuit => IsRecorded records stage circuit := by
  rw [StageMetrics.map_circuit_comparisons]
  refine List.filter_congr fun circuit _ => ?_
  rw [h.get?_eq, Bool.eq_iff_iff, isSome_lastMetrics?_iff, decide_eq_true_iff]

theorem Keeps.exists_of_mem_comparisons (h : s.Keeps records) {stage : ℕ} {c : DelayComparison}
    (hc : c ∈ s.comparisons stage) :
    ∃ m, lastMetrics? records stage c.circuit = some m ∧ c.estimated = m.delay ∧ c.actual = m.nldmDelay := by
  obtain ⟨circuit, -, hcompared⟩ := List.mem_filterMap.mp hc
  obtain ⟨m, hm, rfl⟩ := Option.map_eq_some_iff.mp hcompared
  exact ⟨m, h.get?_eq stage circuit ▸ hm, rfl, rfl⟩

/-! ### The table -/

/-- After the name and a comma, the line of a circuit with metrics goes on with a digit. -/
theorem exists_digit_circuitLine (circuit : String) (m : CircuitMetrics) :
    ∃ d, d.isDigit = true ∧ circuit.toList ++ [',', ' ', d] <+: (circuitLine circuit (some m)).toList := by
  obtain ⟨d, digits, hdigits⟩ := List.exists_cons_of_ne_nil (Nat.toDigits_ne_nil (b := 10) (n := m.gates))
  have hdigit : d.isDigit = true :=
    Nat.isDigit_of_mem_toDigits (b := 10) (by decide) (by decide) (hdigits ▸ List.mem_cons_self)
  have hname : (toString circuit).toList = circuit.toList := rfl
  have hcomma : (toString ", ").toList = [',', ' '] := rfl
  refine ⟨d, hdigit, ?_⟩
  simp only [circuitLine, String.toList_append, Nat.toString_eq_repr, Nat.toList_repr, hdigits, hname, hcomma,
    List.append_assoc]
  exact (List.prefix_append_right_inj _).mpr ⟨_, rfl⟩

/-- No line of a circuit with metrics says that it is missing. -/
theorem circuitLine_eq_missing_iff {circuit : String} {metrics : Option CircuitMetrics} :
    circuitLine circuit metrics = circuit ++ ", missing" ↔ metrics = none := by
  refine ⟨fun h => ?_, fun h => h ▸ rfl⟩
  cases metrics with
  | none => rfl
  | some m =>
    obtain ⟨d, hdigit, hline⟩ := exists_digit_circuitLine circuit m
    rw [h, String.toList_append, List.prefix_append_right_inj] at hline
    have hletter : d = 'm' := by simpa using hline
    rw [hletter] at hdigit
    cases hdigit

theorem isUnbroken_circuitLine {circuit : String} (hcircuit : IsUnbroken circuit) (metrics : Option CircuitMetrics) :
    IsUnbroken (circuitLine circuit metrics) := by
  cases metrics with
  | none =>
    have hmissing : IsUnbroken ", missing" := by decide
    exact hcircuit.append hmissing
  | some m =>
    have hcomma : IsUnbroken ", " := by decide
    have hgates := (hcircuit.append hcomma).append (isUnbroken_toString m.gates)
    have hedges := (hgates.append hcomma).append (isUnbroken_toString m.edges)
    have hlevel := (hedges.append hcomma).append (isUnbroken_toString m.level)
    have harea := (hlevel.append hcomma).append (isUnbroken_fixedText 2 m.area)
    have hdelay := (harea.append hcomma).append (isUnbroken_fixedText 2 m.delay)
    have hnldmArea := (hdelay.append hcomma).append (isUnbroken_fixedText 2 m.nldmArea)
    exact (hnldmArea.append hcomma).append (isUnbroken_fixedText 2 m.nldmDelay)

theorem isUnbroken_of_mem_stageLines (s : StageMetrics) (stage : ℕ) : ∀ line ∈ s.stageLines stage, IsUnbroken line := by
  have hcircuits : ∀ circuit ∈ s.suite.circuits, IsUnbroken circuit := by
    cases s.suite <;> decide
  have hlabel : IsUnbroken s.suite.label := by
    cases s.suite <;> decide
  have hstage : IsUnbroken "stage " := by decide
  have hopen : IsUnbroken " (" := by decide
  have hclose : IsUnbroken ")" := by decide
  have hcolumns : IsUnbroken " , #Gate, #Edge, #Level, #area, #delay, #NLDM Area, #NLDM Delay" := by decide
  have htitle := (((hstage.append (isUnbroken_toString stage)).append hopen).append hlabel).append hclose
  refine List.forall_mem_cons.mpr ⟨htitle, List.forall_mem_cons.mpr ⟨hcolumns, List.forall_mem_map.mpr ?_⟩⟩
  exact fun circuit hcircuit => isUnbroken_circuitLine (hcircuits circuit hcircuit) _

/-- The lines of the table are those of its stages, with an empty line between two of them. -/
theorem textLines_text (s : StageMetrics) :
    textLines s.text.toList = ([""].intercalate (s.stages.map s.stageLines)).map String.toList := by
  have hempty : ∀ line ∈ [""], IsUnbroken line := by decide
  have hlines : ∀ line ∈ [""].intercalate (s.stages.map s.stageLines), IsUnbroken line :=
    forall_mem_intercalate hempty (List.forall_mem_map.mpr fun stage _ => s.isUnbroken_of_mem_stageLines stage)
  exact textLines_join fun line hline => (hlines line hline).isPlainLine

/-- Two headings, and a row for each circuit of the suite in its order: the last metrics, or that they are missing
if the circuit is not compared. -/
theorem Keeps.exists_rows (h : s.Keeps records) (stage : ℕ) :
    ∃ title columns rows, s.stageLines stage = title :: columns :: rows ∧
      List.Forall₂ (fun circuit row => row = circuitLine circuit (lastMetrics? records stage circuit) ∧
        (row = circuit ++ ", missing" ↔ circuit ∉ (s.comparisons stage).map DelayComparison.circuit))
        s.suite.circuits rows := by
  refine ⟨_, _, _, rfl, ?_⟩
  rw [List.forall₂_map_right_iff, List.forall₂_same]
  intro circuit hcircuit
  refine ⟨by rw [h.get?_eq], ?_⟩
  rw [circuitLine_eq_missing_iff, StageMetrics.map_circuit_comparisons, List.mem_filter,
    ← Option.not_isSome_iff_eq_none]
  simp [hcircuit]

/-! ### Orders of records -/

/-- Metrics of one suite that keep the same last records show the same. They need not be equal: the trees may have
different shapes. -/
theorem Keeps.shows_same (h : s.Keeps records) (h' : s'.Keeps records') (hsame : SameHistories records records')
    (hsuite : s'.suite = s.suite) :
    (∀ stage circuit, s'.get? stage circuit = s.get? stage circuit) ∧ s'.stages = s.stages ∧
      (∀ stage, s'.comparisons stage = s.comparisons stage) ∧ s'.text = s.text := by
  have hget : ∀ stage circuit, s'.get? stage circuit = s.get? stage circuit := by
    intro stage circuit
    rw [h.get?_eq, h'.get?_eq, hsame.lastMetrics?]
  have hstages : s'.stages = s.stages := by
    -- Increasing lists with the same members are equal.
    refine s'.pairwise_stages.eq_of_mem_iff s.pairwise_stages fun stage => ?_
    rw [h.mem_stages_iff, h'.mem_stages_iff, ← hsame.exists_stage_iff]
  have hlines : s'.stageLines = s.stageLines := by
    funext stage
    simp only [stageLines, hsuite, hget]
  refine ⟨hget, hstages, ?_, ?_⟩
  · intro stage
    simp only [comparisons, hsuite, hget]
  · rw [text, text, hstages, hlines]

end Views

/-- **What is shown of records.** Whatever is recorded, in whatever order and under whatever names: what is looked up
is the last record for a stage and a circuit. The stages are those that something has been recorded for, once each
and in increasing order. At each stage the circuits of the suite that have been recorded are compared, once each and
in the order of the suite, with the delays of their last records. In the table each stage has a row for each circuit
of the suite, in its order, and a row says that a circuit is missing exactly if it is not compared. Nothing of this
changes if records for different stages or circuits come in another order. -/
theorem ofRecords_shows (suite : Suite) (records : List StageRecord) :
    let s := ofRecords suite records
    (∀ stage circuit, s.get? stage circuit = lastMetrics? records stage circuit) ∧
    s.stages.Pairwise (· < ·) ∧
    (∀ stage, stage ∈ s.stages ↔ ∃ r ∈ records, r.stage = stage) ∧
    (∀ stage, (s.comparisons stage).map DelayComparison.circuit =
      suite.circuits.filter fun circuit => IsRecorded records stage circuit) ∧
    (∀ stage, ((s.comparisons stage).map DelayComparison.circuit).Nodup) ∧
    (∀ stage, ∀ c ∈ s.comparisons stage, ∃ m, lastMetrics? records stage c.circuit = some m ∧
      c.estimated = m.delay ∧ c.actual = m.nldmDelay) ∧
    textLines s.text.toList = ([""].intercalate (s.stages.map s.stageLines)).map String.toList ∧
    (∀ stage, ∃ title columns rows, s.stageLines stage = title :: columns :: rows ∧
      List.Forall₂ (fun circuit row => row = circuitLine circuit (lastMetrics? records stage circuit) ∧
        (row = circuit ++ ", missing" ↔ circuit ∉ (s.comparisons stage).map DelayComparison.circuit))
        suite.circuits rows) ∧
    ∀ records', SameHistories records records' →
      let s' := ofRecords suite records'
      (∀ stage circuit, s'.get? stage circuit = s.get? stage circuit) ∧ s'.stages = s.stages ∧
        (∀ stage, s'.comparisons stage = s.comparisons stage) ∧ s'.text = s.text := by
  intro s
  have hkeeps : s.Keeps records := keeps_ofRecords suite records
  have hsuite : s.suite = suite := suite_ofRecords suite records
  have hcircuits := hsuite ▸ hkeeps.map_circuit_comparisons
  have hdistinct : suite.circuits.Nodup := by cases suite <;> decide
  refine ⟨hkeeps.get?_eq, s.pairwise_stages, hkeeps.mem_stages_iff, hcircuits, ?_, ?_, s.textLines_text, ?_, ?_⟩
  · intro stage
    rw [hcircuits stage]
    exact hdistinct.filter _
  · exact fun stage c hc => hkeeps.exists_of_mem_comparisons hc
  · exact hsuite ▸ hkeeps.exists_rows
  · intro records' hsame
    exact hkeeps.shows_same (keeps_ofRecords suite records') hsame ((suite_ofRecords suite records').trans hsuite.symm)

/-- Records for one circuit twice, and for a name that is not in the suite. -/
def repeatedRecords : List StageRecord :=
  [⟨0, "adder", ⟨1, 2, 1, 4.0, 300.0, 4.5, 310.0⟩⟩, ⟨0, "adder", ⟨3, 5, 2, 6.0, 280.0, 6.5, 290.0⟩⟩,
    ⟨0, "unknown", ⟨1, 1, 1, 1.0, 100.0, 1.0, 100.0⟩⟩]

/-- A record for another stage may come first or second. -/
theorem repeatedRecords_show :
    let other : StageRecord := ⟨1, "bar", ⟨1, 1, 1, 1.0, 150.0, 1.0, 160.0⟩⟩
    let records := repeatedRecords.take 1 ++ other :: repeatedRecords.drop 1
    (ofRecords .arithmetic records).get? 0 "adder" = some ⟨3, 5, 2, 6.0, 280.0, 6.5, 290.0⟩ ∧
      ((ofRecords .arithmetic records).comparisons 0).map DelayComparison.circuit = ["adder"] ∧
      SameHistories records (other :: repeatedRecords) ∧
      (ofRecords .arithmetic (other :: repeatedRecords)).text = (ofRecords .arithmetic records).text := by
  intro other records
  have hsame : SameHistories records (other :: repeatedRecords) := sameHistories_swap (by decide) [] _
  obtain ⟨hget, -, -, hcircuits, -, -, -, -, hshows⟩ := ofRecords_shows .arithmetic records
  obtain ⟨-, -, -, htext⟩ := hshows (other :: repeatedRecords) hsame
  refine ⟨(hget 0 "adder").trans rfl, (hcircuits 0).trans ?_, hsame, htext⟩
  decide +kernel

end StageMetrics

end DelayTuning
