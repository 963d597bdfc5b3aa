import DelayTuning.Clustering.KMeans
import DelayTuning.Decimal.Fixed

/-!
# The table of a clustering

One row for each cluster: its number, its size and its centre with a limited number of places. A
clustering whose labels do not all name a cluster has no sizes and no table; a table with more places
than the limit has no text.

## Main definitions

- `Clustering.sizes?`: the number of points in each cluster
- `Clustering.roundedCentres`: the centres rounded to a number of places
- `ClusterTable.ofClustering?`: the rows of the table
- `ClusterTable.text?`: the text of the table
-/

namespace DelayTuning

/-- Repeated squaring: the powers `base`, `base ^ 2`, `base ^ 4`, … multiplied into `result` where the
    exponent has a binary one. -/
def powerFrom : Nat → Nat → Float → Float → Float
  | 0, _, _, result => result
  | fuel + 1, exponent, base, result =>
    let result := if exponent % 2 = 1 then result * base else result
    if exponent / 2 = 0 then result else powerFrom fuel (exponent / 2) (base * base) result

/-- Ten to a power of at most 32 binary digits, by repeated squaring; a negative power is the
    reciprocal. -/
def powerOfTen (exponent : Int) : Float :=
  let power := powerFrom 32 exponent.natAbs 10.0 1.0
  if exponent < 0 then 1.0 / power else power

/-- A number rounded to a number of places, by way of a power of ten. The number of places wraps around
    to negative ones at `2 ^ 31`. -/
def roundToPlaces (places : UInt32) (x : Float) : Float :=
  let factor := powerOfTen places.toInt32.toInt
  roundHalfAway (x * factor) / factor

namespace Clustering

def size (c : Clustering Float) : Nat :=
  c.centres.length

/-- The number of points in each cluster; `none` if a label names no cluster. -/
def sizes? (c : Clustering Float) : Option (List Nat) :=
  if c.labels.all fun label => label < c.size then
    some ((List.range c.size).map fun k => c.labels.count k)
  else none

def roundedCentres (c : Clustering Float) (places : UInt32) : List (Point Float) :=
  c.centres.map fun centre => centre.map (roundToPlaces places)

def reportCentres (c : Clustering Float) : List (Point Float) :=
  c.roundedCentres c.precision

end Clustering

/-- A row of the table of a clustering. -/
structure ClusterRow where
  cluster : Nat
  size : Nat
  centre : Point Float
  deriving DecidableEq, Repr

/-- The table of a clustering. -/
structure ClusterTable where
  rows : List ClusterRow
  places : Nat
  deriving DecidableEq, Repr

namespace ClusterTable

/-- The largest number of places that a number can be written with. -/
def maxPlaces : Nat := 65535

/-- The table of a clustering; `none` if a label names no cluster. -/
def ofClustering? (c : Clustering Float) : Option ClusterTable :=
  c.sizes?.map fun sizes => {
    rows := (sizes.zip c.reportCentres).zipIdx.map fun ((size, centre), k) => ⟨k, size, centre⟩
    places := c.precision.toNat }

/-- The first line of a table. -/
def header : String := "cluster, size, center"

def rowText (places : Nat) (row : ClusterRow) : String :=
  s!"{row.cluster}, {row.size}, [" ++ ", ".intercalate (row.centre.map (fixedText places)) ++ "]"

def lines (t : ClusterTable) : List String :=
  header :: t.rows.map (rowText t.places)

/-- Whether a coordinate would need more places than can be written. -/
def tooFine (t : ClusterTable) : Bool :=
  decide (maxPlaces < t.places) && t.rows.any fun row => !row.centre.isEmpty

/-- The text of a table, each line ended; `none` if a coordinate has more places than can be
    written. -/
def text? (t : ClusterTable) : Option String :=
  if t.tooFine then none else some (String.join (t.lines.map (· ++ "\n")))

end ClusterTable

end DelayTuning
