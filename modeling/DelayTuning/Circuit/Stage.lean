import DelayTuning.Circuit.Comparison
import DelayTuning.Circuit.Suite
import Std.Data.TreeMap

/-!
# Metrics by stage

The metrics of the circuits of a suite at the stages of a flow. A later record for the same stage and
circuit takes the place of an earlier one.

## Main definitions

- `StageMetrics`: metrics by stage and circuit
- `StageMetrics.insert`, `StageMetrics.get?`: record and look up
- `StageMetrics.comparisons`: the comparisons of delays at a stage
- `StageMetrics.text`: the table of all stages
-/

namespace DelayTuning

/-- The metrics of the circuits at one stage. -/
abbrev CircuitTable := Std.TreeMap String CircuitMetrics

/-- Metrics by stage and circuit. -/
structure StageMetrics where
  suite : Suite
  table : Std.TreeMap Nat CircuitTable

namespace StageMetrics

def empty (suite : Suite) : StageMetrics := ⟨suite, ∅⟩

def insert (s : StageMetrics) (stage : Nat) (circuit : String) (metrics : CircuitMetrics) :
    StageMetrics :=
  { s with table := s.table.insert stage ((s.table.getD stage ∅).insert circuit metrics) }

/-- The stages in increasing order. -/
def stages (s : StageMetrics) : List Nat :=
  s.table.keys

/-- The metrics of all circuits at a stage. -/
def stage? (s : StageMetrics) (stage : Nat) : Option CircuitTable :=
  s.table[stage]?

def get? (s : StageMetrics) (stage : Nat) (circuit : String) : Option CircuitMetrics :=
  (s.stage? stage).bind fun circuits => circuits[circuit]?

/-- The estimated and the measured delay of the circuits of the suite at a stage, in the order of
    reports. -/
def comparisons (s : StageMetrics) (stage : Nat) : List DelayComparison :=
  s.suite.circuits.filterMap fun circuit =>
    (s.get? stage circuit).map fun m => ⟨circuit, m.delay, m.nldmDelay⟩

def circuitLine (circuit : String) : Option CircuitMetrics → String
  | some m =>
    s!"{circuit}, {m.gates}, {m.edges}, {m.level}, " ++ fixedText 2 m.area ++ ", "
      ++ fixedText 2 m.delay ++ ", " ++ fixedText 2 m.nldmArea ++ ", " ++ fixedText 2 m.nldmDelay
  | none => circuit ++ ", missing"

/-- The lines of a stage: two headings, then a line for each circuit of the suite. -/
def stageLines (s : StageMetrics) (stage : Nat) : List String :=
  (s!"stage {stage} (" ++ s.suite.label ++ ")") ::
    " , #Gate, #Edge, #Level, #area, #delay, #NLDM Area, #NLDM Delay" ::
    s.suite.circuits.map fun circuit => circuitLine circuit (s.get? stage circuit)

/-- The table of all stages with an empty line between two of them, each line ended. -/
def text (s : StageMetrics) : String :=
  String.join (([""].intercalate (s.stages.map s.stageLines)).map (· ++ "\n"))

end StageMetrics

end DelayTuning
