import DelayTuning.Clustering.Report
import DelayTuning.Proofs.Log.Assembly
import DelayTuning.Proofs.Log.Encoding
import DelayTuning.Proofs.Log.Pieces

/-!
# Diagnostics on logs

What is written about a marker line without a point is a single line, unless the name of its source has a line
feed in it: the line of the log has none, and a fault quotes nothing else.

## Main definitions

- `IsSingleLine`: a text without line feeds

## Main statements

- `MarkerParser.Reports.lineFeed_notMem`: the lines of a log have no line feed, also when they were bytes
- `MarkerParser.Assembles.exists_line`: the line that a failure of a report is about
- `MarkerParser.Assembles.isSingleLine_diagnosticLine`: what is written about it
-/

namespace DelayTuning

/-! ### Single lines -/

/-- A text without line feeds. -/
def IsSingleLine (s : String) : Prop :=
  '\n' ∉ s.toList

instance instDecidableIsSingleLine (s : String) : Decidable (IsSingleLine s) :=
  inferInstanceAs (Decidable ('\n' ∉ s.toList))

theorem IsSingleLine.append {s t : String} (hs : IsSingleLine s) (ht : IsSingleLine t) :
    IsSingleLine (s ++ t) := by
  rw [IsSingleLine, String.toList_append, List.mem_append, not_or]
  exact ⟨hs, ht⟩

theorem lineFeed_notMem_toDigits (n : ℕ) : '\n' ∉ Nat.toDigits 10 n := by
  intro hmem
  have hdigit := Nat.isDigit_of_mem_toDigits (by decide) (by decide) hmem
  cases hdigit

theorem isSingleLine_toString (n : ℕ) : IsSingleLine (toString n) := by
  have htoString : (toString n).toList = Nat.toDigits 10 n := by simp
  rw [IsSingleLine, htoString]
  exact lineFeed_notMem_toDigits n

/-- A fault that quotes from a single line is worded on a single line. -/
theorem isSingleLine_message {fault : LineFault} {line : List Char} (hfault : fault.QuotesFrom line)
    (hline : '\n' ∉ line) : IsSingleLine fault.message := by
  have hindex : IsSingleLine "index " := by decide
  cases fault with
  | noTokens => decide
  | duplicateIndex index =>
    have htwice : IsSingleLine " appears more than once" := by decide
    exact (hindex.append (isSingleLine_toString index)).append htwice
  | missingIndex index =>
    have hmissing : IsSingleLine " is missing" := by decide
    exact (hindex.append (isSingleLine_toString index)).append hmissing
  | invalidNumber text =>
    have hinvalid : IsSingleLine "invalid number '" := by decide
    have htext : IsSingleLine text := fun hmem => hline (hfault text rfl hmem)
    have hquote : IsSingleLine "'" := by decide
    exact (hinvalid.append htext).append hquote
  | dimensionMismatch expected actual =>
    have hexpected : IsSingleLine "expected " := by decide
    have hfound : IsSingleLine " values, found " := by decide
    exact ((hexpected.append (isSingleLine_toString expected)).append hfound).append
      (isSingleLine_toString actual)

theorem isSingleLine_diagnosticLine {f : LineFailure} (hsource : IsSingleLine f.source)
    (hmessage : IsSingleLine f.fault.message) : IsSingleLine (ClusterReport.diagnosticLine f) := by
  have hunparsed : IsSingleLine "unparsed " := by decide
  have hcolon : IsSingleLine ":" := by decide
  have hspace : IsSingleLine ": " := by decide
  have hplace := (hcolon.append (isSingleLine_toString f.line)).append hspace
  exact hunparsed.append ((hsource.append hplace).append hmessage)

/-! ### Lines of logs -/

/-- What is related to an entry of the second list is in the first one. -/
theorem exists_of_mem_forall₂ {β γ : Type} {R : β → γ → Prop} {xs : List β} {ys : List γ}
    (h : List.Forall₂ R xs ys) {y : γ} (hy : y ∈ ys) : ∃ x ∈ xs, R x y := by
  induction h with
  | nil => cases hy
  | cons hfirst _ ih =>
    obtain rfl | hmem := List.mem_cons.mp hy
    · exact ⟨_, List.mem_cons_self, hfirst⟩
    · obtain ⟨x, hx, hR⟩ := ih hmem
      exact ⟨x, List.mem_cons_of_mem _ hx, hR⟩

namespace MarkerParser

variable {p : MarkerParser}

/-- The lines of a log have no line feed, also when they were bytes. -/
theorem Reports.lineFeed_notMem {log : Log} {report : LogReport} (h : p.Reports log report) :
    ∀ line ∈ log.lines, '\n' ∉ line := by
  cases h with
  | text source text => exact lineFeed_notMem_splitLines text.toList
  | @bytes source bytes log report hlog =>
    obtain ⟨lines, hlines, rfl⟩ := Option.map_eq_some_iff.mp hlog
    obtain ⟨text, -, rfl⟩ := mapM_decodeLine?_byteLines_eq_some_iff.mp hlines
    exact lineFeed_notMem_splitLines text

theorem Assembles.lineFeed_notMem {logs : List Log} {report : LogReport} (h : p.Assembles logs report) :
    ∀ log ∈ logs, ∀ line ∈ log.lines, '\n' ∉ line := by
  induction h with
  | empty => simp
  | read hreport => exact List.forall_mem_singleton.mpr hreport.lineFeed_notMem
  | merge _ _ ihr ihother => exact List.forall_mem_append.mpr ⟨ihr, ihother⟩

theorem mem_of_mem_markerLinesFrom {source : String} {number : ℕ} {lines : List (List Char)}
    {m : MarkerLine} (h : m ∈ p.markerLinesFrom source number lines) :
    m.source = source ∧ m.text ∈ lines := by
  induction lines generalizing number with
  | nil => cases h
  | cons text rest ih =>
    rw [markerLinesFrom] at h
    split at h
    · obtain rfl | hmem := List.mem_cons.mp h
      · exact ⟨rfl, List.mem_cons_self⟩
      · obtain ⟨hsource, htext⟩ := ih hmem
        exact ⟨hsource, List.mem_cons_of_mem text htext⟩
    · obtain ⟨hsource, htext⟩ := ih h
      exact ⟨hsource, List.mem_cons_of_mem text htext⟩

/-- A failure quotes from the line that it is about, whether reading or a check of lengths has made it. -/
theorem Settles.quotes {m : MarkerLine} {f : LineFailure} (h : p.Settles m (.error f)) :
    f.source = m.source ∧ f.fault.QuotesFrom m.text := by
  cases h with
  | fault hread =>
    rw [parseLine?_ofList] at hread
    exact ⟨rfl, quotes_of_parseChars? hread⟩
  | misfit => exact ⟨rfl, fun _ hnone => by cases hnone⟩

/-- A failure of a report is about a line of one of its logs. -/
theorem Assembles.exists_line {logs : List Log} {report : LogReport} (h : p.Assembles logs report)
    {f : LineFailure} (hf : f ∈ report.failures) :
    ∃ log ∈ logs, f.source = log.source ∧ ∃ line ∈ log.lines, f.fault.QuotesFrom line := by
  obtain ⟨settled, hsettles, hperm⟩ := exists_settled h
  have hentry : Except.error f ∈ report.entries :=
    List.mem_append_right _ (List.mem_map.mpr ⟨f, hf, rfl⟩)
  obtain ⟨m, hm, hsettled⟩ := exists_of_mem_forall₂ hsettles (hperm.mem_iff.mpr hentry)
  obtain ⟨log, hlog, hline⟩ := List.mem_flatMap.mp hm
  obtain ⟨hsource, htext⟩ := mem_of_mem_markerLinesFrom hline
  obtain ⟨hfsource, hquotes⟩ := hsettled.quotes
  exact ⟨log, hlog, hfsource.trans hsource, m.text, htext, hquotes⟩

/-- What is written about the failures of a report are single lines if the names of its logs are. -/
theorem Assembles.isSingleLine_diagnosticLine {logs : List Log} {report : LogReport}
    (h : p.Assembles logs report) (hsources : ∀ log ∈ logs, IsSingleLine log.source) :
    ∀ f ∈ report.failures, IsSingleLine (ClusterReport.diagnosticLine f) := by
  intro f hf
  obtain ⟨log, hlog, hsource, line, hline, hquotes⟩ := h.exists_line hf
  have hmessage := isSingleLine_message hquotes (h.lineFeed_notMem log hlog line hline)
  exact DelayTuning.isSingleLine_diagnosticLine (hsource ▸ hsources log hlog) hmessage

end MarkerParser

end DelayTuning
