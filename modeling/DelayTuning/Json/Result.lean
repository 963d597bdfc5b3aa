import DelayTuning.Circuit.Stage
import DelayTuning.Clustering.Table
import DelayTuning.Json.Decode
import DelayTuning.Log.Report
import DelayTuning.Run.Summary

/-!
# Results as JSON

How observations, summaries, clusterings, tables and failures are written as JSON values, and how those
that are read back are read.

## Main definitions

- `Observation.toJson`, `Ledger.toJson`, `RunSummary.toJson`: the results of a search
- `Clustering.toJson`, `ClusterTable.toJson`: a clustering and its table
- `CircuitMetrics.toJson`, `StageMetrics.toJson`, `comparisonJson`: metrics of circuits
- `FailureKind.toJson`, `LineFailure.toJson`, `MappingOutcome.toJson`, `QuadraticBowl.toJson`
-/

namespace DelayTuning

/-! ### The results of a search -/

namespace Observation

def toJson (o : Observation) : Json :=
  .object [("candidate", .floats o.candidate.toFloats), ("value", .float o.value)]

def ofJson? (v : Json) : Option Observation :=
  match v.record? [Json.required "candidate", Json.required "value"] with
  | some [candidate, value] => do
    let candidate ← candidate.asFloats?
    let value ← value.asFloat?
    some { candidate := .ofFloats candidate, value }
  | _ => none

end Observation

/-- A ledger as a JSON value, with the index of its best observation. -/
def Ledger.toJson (l : Ledger) : Json :=
  .object [("entries", .array (l.entries.map Observation.toJson)),
    ("best", .ofOption (l.bestIndex.map .natural))]

def RunSummary.toJson (s : RunSummary) : Json :=
  .object [("id", .text s.id.text), ("name", .text s.outcome.name),
    ("started_at", .text s.started.text), ("finished_at", .text s.finished.text),
    ("evaluations", .natural s.outcome.evaluations), ("failures", .natural s.outcome.failures),
    ("best", s.outcome.best.toJson), ("convergence", .floats s.outcome.convergence)]

/-! ### Evaluations -/

namespace FailureKind

def ofName? : String → Option FailureKind
  | "ToolCrash" => some .toolCrash
  | "MalformedOutput" => some .malformedOutput
  | "Other" => some .other
  | _ => none

def toJson (k : FailureKind) : Json :=
  .text k.name

def ofJson? (v : Json) : Option FailureKind :=
  v.plain?.bind ofName?

end FailureKind

namespace MappingOutcome

def toJson (o : MappingOutcome) : Json :=
  .object [("delay", .float o.delay), ("area", .float o.area), ("level", .natural o.level)]

def ofJson? (v : Json) : Option MappingOutcome :=
  match v.record? [Json.required "delay", Json.required "area", Json.required "level"] with
  | some [delay, area, level] => do
    let delay ← delay.asFloat?
    let area ← area.asFloat?
    let level ← level.asSmallCount?
    some { delay, area, level }
  | _ => none

end MappingOutcome

namespace QuadraticBowl

def toJson (bowl : QuadraticBowl) : Json :=
  .object [("center", .float bowl.centre)]

def ofJson? (v : Json) : Option QuadraticBowl :=
  match v.record? [Json.required "center"] with
  | some [centre] => centre.asFloat?.map fun x => ⟨x⟩
  | _ => none

end QuadraticBowl

/-! ### Clusterings -/

namespace Clustering

def toJson (c : Clustering Float) : Json :=
  .object [("centers", .array (c.centres.map .floats)),
    ("labels", .array (c.labels.map .natural)), ("iterations", .natural c.iterations),
    ("converged", .bool c.converged), ("inertia", .float c.inertia),
    ("report_precision", .natural c.precision.toNat)]

def ofJson? (v : Json) : Option (Clustering Float) :=
  match v.record? [Json.required "centers", Json.required "labels", Json.required "iterations",
    Json.required "converged", Json.required "inertia", Json.required "report_precision"] with
  | some [centres, labels, iterations, converged, inertia, precision] => do
    let centres ← centres.asList? Json.asFloats?
    let labels ← labels.asList? Json.asCount?
    let iterations ← iterations.asCount?
    let converged ← converged.asBool?
    let inertia ← inertia.asFloat?
    let precision ← precision.asSmallCount?
    some { centres, labels, iterations, converged, inertia, precision := .ofNat precision }
  | _ => none

end Clustering

def ClusterRow.toJson (row : ClusterRow) : Json :=
  .object [("cluster", .natural row.cluster), ("size", .natural row.size),
    ("center", .floats row.centre)]

def ClusterTable.toJson (t : ClusterTable) : Json :=
  .object [("rows", .array (t.rows.map ClusterRow.toJson))]

/-! ### Logs -/

def LineFault.toJson : LineFault → Json
  | .noTokens => .text "NoTokens"
  | .duplicateIndex index => .object [("DuplicateIndex", .natural index)]
  | .missingIndex index => .object [("MissingIndex", .natural index)]
  | .invalidNumber text => .object [("InvalidNumber", .text text)]
  | .dimensionMismatch expected actual =>
    .object [("DimensionMismatch",
      .object [("expected", .natural expected), ("actual", .natural actual)])]

/-- A line that gives no point as a JSON value. -/
def LineFailure.toJson (f : LineFailure) : Json :=
  .object [("source", .text f.source), ("line", .natural f.line), ("reason", f.fault.toJson)]

/-! ### Circuits -/

namespace Suite

def name : Suite → String
  | .arithmetic => "Arithmetic"
  | .control => "Control"

def ofName? : String → Option Suite
  | "Arithmetic" => some .arithmetic
  | "Control" => some .control
  | _ => none

def toJson (s : Suite) : Json :=
  .text s.name

def ofJson? (v : Json) : Option Suite :=
  v.plain?.bind ofName?

end Suite

namespace CircuitMetrics

def toJson (m : CircuitMetrics) : Json :=
  .object [("gates", .natural m.gates), ("edges", .natural m.edges), ("level", .natural m.level),
    ("area", .float m.area), ("delay", .float m.delay), ("nldm_area", .float m.nldmArea),
    ("nldm_delay", .float m.nldmDelay)]

def ofJson? (v : Json) : Option CircuitMetrics :=
  match v.record? [Json.required "gates", Json.required "edges", Json.required "level",
    Json.required "area", Json.required "delay", Json.required "nldm_area",
    Json.required "nldm_delay"] with
  | some [gates, edges, level, area, delay, nldmArea, nldmDelay] => do
    let gates ← gates.asCount?
    let edges ← edges.asCount?
    let level ← level.asSmallCount?
    let area ← area.asFloat?
    let delay ← delay.asFloat?
    let nldmArea ← nldmArea.asFloat?
    let nldmDelay ← nldmDelay.asFloat?
    some { gates, edges, level, area, delay, nldmArea, nldmDelay }
  | _ => none

end CircuitMetrics

def DelayComparison.toJson (c : DelayComparison) : Json :=
  .object [("circuit", .text c.circuit), ("estimated", .float c.estimated),
    ("actual", .float c.actual)]

def comparisonJson (rows : List DelayComparison) : Json :=
  .object [("rows", .array (rows.map DelayComparison.toJson))]

/-- The metrics of all circuits at a stage as a JSON value. -/
def stageJson (circuits : CircuitTable) : Json :=
  .object (circuits.toList.map fun (circuit, m) => (circuit, m.toJson))

def StageMetrics.toJson (s : StageMetrics) : Json :=
  .object [("kind", s.suite.toJson),
    ("stages", .object (s.table.toList.map fun (stage, circuits) =>
      (toString stage, stageJson circuits)))]

end DelayTuning
