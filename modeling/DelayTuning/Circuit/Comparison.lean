import DelayTuning.Decimal.Fixed
import DelayTuning.Scalar

/-!
# Estimated and measured delay

## Main definitions

- `DelayComparison`: the estimated and the measured delay of a circuit
- `DelayComparison.deltaPercent?`: the difference in percent of the estimate
- `meanDeltaPercent?`: the mean of the differences
- `comparisonText`: the table of comparisons
-/

namespace DelayTuning

/-- The estimated delay of a circuit beside the measured one. -/
structure DelayComparison where
  circuit : String
  estimated : Float
  actual : Float
  deriving DecidableEq, Repr

namespace DelayComparison

/-- The difference of the two delays in percent of the estimate; an estimate of zero has none. -/
def deltaPercent? (c : DelayComparison) : Option Float :=
  if c.estimated == 0.0 then none
  else some ((c.actual - c.estimated).abs / c.estimated.abs * 100.0)

def text (c : DelayComparison) : String :=
  let delta := match c.deltaPercent? with
    | some d => fixedText 1 d
    | none => "n/a"
  c.circuit ++ ", " ++ fixedText 2 c.estimated ++ ", " ++ fixedText 2 c.actual ++ ", " ++ delta

end DelayComparison

/-- The mean of the differences in percent, over the comparisons that have one. -/
def meanDeltaPercent? (rows : List DelayComparison) : Option Float :=
  let deltas := rows.filterMap DelayComparison.deltaPercent?
  if deltas.isEmpty then none else some (Scalar.sum deltas / Float.ofNat deltas.length)

/-- The table of comparisons, each line ended. -/
def comparisonText (rows : List DelayComparison) : String :=
  String.join (("circuit, estimated, actual, delta%" :: rows.map DelayComparison.text).map (· ++ "\n"))

end DelayTuning
