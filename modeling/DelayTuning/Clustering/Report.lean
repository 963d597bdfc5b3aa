import DelayTuning.Clustering.Table
import DelayTuning.Log.Report

/-!
# Clustering the points of logs

First the marker lines that could not be read are listed, then their number, then the table of the
clusters. The first two are there even if too few points are left for a clustering.

## Main definitions

- `ClusterReportFailure`: why there is no table
- `ClusterReport.ofLogs`: the report on the points of logs
-/

namespace DelayTuning

/-- Why the points of logs have no table. -/
inductive ClusterReportFailure where
  /-- The points cannot be clustered. -/
  | clustering (points clusters : Nat) (cause : TuneError)
  | tooManyPlaces
  deriving DecidableEq, Repr

/-- What was being done when a clustering failed. -/
def clusteringContext (points clusters : Nat) : String :=
  s!"clustering {points} vectors into {clusters} clusters"

/-- A clustering of the points of logs with all that is written about it. -/
structure ClusterReport where
  diagnostics : List String
  out : List String
  result : Except ClusterReportFailure (Clustering Float)

namespace ClusterReport

/-- The line about a marker line that could not be read. -/
def diagnosticLine (f : LineFailure) : String :=
  "unparsed " ++ f.message

def countLine (count : Nat) : String :=
  s!"unparsed lines: {count}"

/-- The lines of the table of a clustering; `none` if it cannot be written. -/
def tableLines? (c : Clustering Float) : Option (List String) :=
  match ClusterTable.ofClustering? c with
  | some table => if table.tooFine then none else some table.lines
  | none => none

/-- The clustering of the points of logs into `k` clusters. -/
def ofLogs (logs : LogReport) (config : ClusteringConfig) (k : Nat) : ClusterReport :=
  let diagnostics := logs.failures.map diagnosticLine
  let count := countLine logs.unparsedCount
  match cluster config logs.values k with
  | .error cause => ⟨diagnostics, [count], .error (.clustering logs.points.length k cause)⟩
  | .ok clustering =>
    match tableLines? clustering with
    | some lines => ⟨diagnostics, count :: lines, .ok clustering⟩
    | none => ⟨diagnostics, [count], .error .tooManyPlaces⟩

end ClusterReport

end DelayTuning
