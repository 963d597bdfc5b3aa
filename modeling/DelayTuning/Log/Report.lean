import DelayTuning.Log.Line
import DelayTuning.Text.Lines

/-!
# Reports on logs

What a log, or several of them, says about the best points of runs: the points that could be read, and
the marker lines that could not. All points of a report have the length of the first one.

## Main definitions

- `BestPoint`, `LineFailure`: a point or a fault with its source and line
- `LogReport`: what has been read
- `LogReport.merge`: one report after another
- `MarkerParser.readText`: the report on a text
- `MarkerParser.readBytes`: the report on bytes, which must be UTF-8 line by line
-/

namespace DelayTuning

/-- The best point of a run and where it was read. -/
structure BestPoint where
  source : String
  /-- The number of the line in its source, from one. -/
  line : Nat
  values : List Float
  deriving DecidableEq, Repr

/-- A marker line that gives no point. -/
structure LineFailure where
  source : String
  /-- The number of the line in its source, from one. -/
  line : Nat
  fault : LineFault
  deriving DecidableEq, Repr

/-- The wording of a failure: where, then why. -/
def LineFailure.message (f : LineFailure) : String :=
  f.source ++ s!":{f.line}: " ++ f.fault.message

/-- What has been read from logs. -/
structure LogReport where
  points : List BestPoint
  failures : List LineFailure
  deriving DecidableEq, Repr

namespace LogReport

def empty : LogReport := ⟨[], []⟩

/-- The number of marker lines that gave no point. -/
def unparsedCount (r : LogReport) : Nat :=
  r.failures.length

/-- Whether every marker line gave a point. -/
def isClean (r : LogReport) : Bool :=
  r.failures.isEmpty

/-- The length of the points, fixed by the first one. -/
def dimension? (r : LogReport) : Option Nat :=
  r.points.head?.map fun p => p.values.length

/-- The points without their sources. -/
def values (r : LogReport) : List (List Float) :=
  r.points.map BestPoint.values

/-- A report with one more failure. -/
def reject (r : LogReport) (failure : LineFailure) : LogReport :=
  { r with failures := r.failures ++ [failure] }

/-- A report with one more point, which counts as a failure if its length is not that of the first
    point. -/
def accept (r : LogReport) (p : BestPoint) : LogReport :=
  match r.dimension? with
  | some expected =>
    if p.values.length = expected then { r with points := r.points ++ [p] }
    else r.reject ⟨p.source, p.line, .dimensionMismatch expected p.values.length⟩
  | none => { r with points := r.points ++ [p] }

theorem count_accept (r : LogReport) (p : BestPoint) :
    (r.accept p).points.length + (r.accept p).failures.length
      = r.points.length + r.failures.length + 1 := by
  unfold accept
  split
  · split
    · simp
      omega
    · simp [reject]
      omega
  · simp
    omega

/-- A report followed by another one, whose points are checked against the length of the first
    point. -/
def merge (r other : LogReport) : LogReport :=
  let merged := other.points.foldl accept r
  { merged with failures := merged.failures ++ other.failures }

end LogReport

namespace MarkerParser

/-- A report with one more line. -/
def readLine (p : MarkerParser) (source : String) (r : LogReport) (number : Nat) (line : List Char) :
    LogReport :=
  match p.parseChars? line with
  | none => r
  | some (.ok values) => r.accept ⟨source, number, values⟩
  | some (.error fault) => r.reject ⟨source, number, fault⟩

/-- A report with more lines, the first of which has the given number. -/
def readLines (p : MarkerParser) (source : String) : LogReport → Nat → List (List Char) → LogReport
  | r, _, [] => r
  | r, number, line :: rest =>
    p.readLines source (p.readLine source r number line) (number + 1) rest

def readText (p : MarkerParser) (source : String) (text : String) : LogReport :=
  p.readLines source .empty 1 (textLines text.toList)

/-- A report with more lines given as bytes; `none` from the first line on that is not UTF-8. -/
def readByteLines? (p : MarkerParser) (source : String) :
    LogReport → Nat → List (List UInt8) → Option LogReport
  | r, _, [] => some r
  | r, number, line :: rest =>
    match String.fromUTF8? ⟨line.toArray⟩ with
    | some text =>
      p.readByteLines? source (p.readLine source r number text.toList) (number + 1) rest
    | none => none

/-- The report on a sequence of bytes, read line by line; `none` if a line is not UTF-8. -/
def readBytes? (p : MarkerParser) (source : String) (bytes : ByteArray) : Option LogReport :=
  p.readByteLines? source .empty 1 (byteLines bytes.data.toList)

/-- The wording for bytes that are not UTF-8. -/
def invalidBytesMessage : String := "stream did not contain valid UTF-8"

end MarkerParser

end DelayTuning
