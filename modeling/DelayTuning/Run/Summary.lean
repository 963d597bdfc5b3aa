import DelayTuning.Decimal.Fixed
import DelayTuning.Log.Line
import DelayTuning.Run.Basic
import DelayTuning.Run.Identifier
import DelayTuning.Run.Instant

/-!
# Summaries of runs

## Main definitions

- `bestLine`: the line with the marker and the coordinates of a point
- `RunSummary`: an outcome with the identifier and the times of its run
-/

namespace DelayTuning

/-- The tokens of the coordinates of a point, from index `i` on; each ends with a comma and a blank
    stands between two of them. -/
def coordinateTokens : Nat → List Float → List Char
  | _, [] => []
  | i, [x] => '[' :: Decimal.digitChars i ++ ']' :: '=' :: fixedChars 3 x ++ [',']
  | i, x :: rest =>
    '[' :: Decimal.digitChars i ++ ']' :: '=' :: fixedChars 3 x ++ ',' :: ' ' ::
      coordinateTokens (i + 1) rest

/-- The line that a run prints for a point: the marker, then the coordinates with three places. -/
def bestLine (candidate : Candidate) : String :=
  String.ofList (MarkerParser.bestMarker.toList ++ coordinateTokens 0 candidate.toFloats)

/-- An outcome with the identifier and the times of its run. -/
structure RunSummary where
  id : Identifier
  started : Instant
  finished : Instant
  outcome : RunOutcome
  deriving DecidableEq, Repr

namespace RunSummary

def durationSeconds (s : RunSummary) : Int :=
  s.started.secondsUntil s.finished

def line (s : RunSummary) : String :=
  bestLine s.outcome.best.candidate

end RunSummary

end DelayTuning
