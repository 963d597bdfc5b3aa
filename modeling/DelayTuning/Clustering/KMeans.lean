import DelayTuning.Error
import DelayTuning.Random.Generator

/-!
# K-means clustering

Lloyd's algorithm from a deterministic start: the first centre is drawn with a seed, each further one is
the point farthest from the centres chosen so far. Equal inputs and seeds give equal results.

## Main definitions

- `startPositions`: the positions of the points that serve as first centres
- `nearestCentre`, `assign`: the label of a point, of all points
- `updateCentres`: the mean of each cluster; an empty cluster takes over a far point
- `cluster`: the whole clustering
- `Clustering`: its result

## Design notes

A comparison with a NaN is false. So a point whose distances are all NaN or infinite has the label
zero, and a centre at such a distance is never nearest.
-/

namespace DelayTuning

/-- The parameters of a clustering. -/
structure ClusteringConfig where
  /-- The seed of the first centre. -/
  seed : UInt64
  maxIterations : Nat
  precision : UInt32
  deriving DecidableEq, Repr

/-- The parameters that are used unless others are asked for. -/
def ClusteringConfig.standard : ClusteringConfig where
  seed := 0
  maxIterations := 300
  precision := 2

/-- The result of a clustering. -/
structure Clustering (α : Type) where
  centres : List (Point α)
  /-- The cluster of each point, in the order of the points. -/
  labels : List Nat
  iterations : Nat
  /-- Whether the labels settled before the rounds were used up. -/
  converged : Bool
  /-- The sum of the squared distances of the points from their centres. -/
  inertia : α
  precision : UInt32
  deriving DecidableEq, Repr

variable {α : Type} [Scalar α]

/-! ### The first centres -/

/-- The position of the largest entry of a list, given the best position and entry before position
    `i`; of several largest ones the first. -/
@[specialize]
def largestFrom : List α → Nat → Nat → α → Nat × α
  | [], _, best, value => (best, value)
  | x :: rest, i, best, value =>
    if value < x then largestFrom rest (i + 1) i x else largestFrom rest (i + 1) best value

/-- The position of the first largest entry of a list, with the entry. -/
@[specialize]
def largest? : List α → Option (Nat × α)
  | [] => none
  | x :: rest => some (largestFrom rest 1 0 x)

/-- The position of the next centre, where `nearest` holds the squared distance of each point from the
    nearest centre: the farthest point, or the first position not used when all points coincide with a
    centre. -/
@[specialize]
def nextPosition (nearest : List α) (chosen : List Nat) : Nat :=
  match largest? nearest with
  | none => 0
  | some (pick, distance) =>
    if distance == 0.0 then
      ((List.range nearest.length).find? fun i => !chosen.contains i).getD pick
    else pick

/-- Positions of `count` more centres after the chosen ones. -/
@[specialize]
def extendPositions (points : List (Point α)) : Nat → List α → List Nat → List Nat
  | 0, _, chosen => chosen
  | count + 1, nearest, chosen =>
    let pick := nextPosition nearest chosen
    let centre := points.getD pick []
    let nearest := List.zipWith (fun d x => Scalar.minNum d (Point.squaredDistance x centre))
      nearest points
    extendPositions points count nearest (chosen ++ [pick])

/-- The positions of the first `k` centres, the first one drawn with the seed. -/
@[specialize]
def startPositions (seed : UInt64) (points : List (Point α)) (k : Nat) : List Nat :=
  let first := ((Generator.ofSeed seed).below points.length).1
  let centre := points.getD first []
  let nearest := points.map fun x => Point.squaredDistance x centre
  extendPositions points (k - 1) nearest [first]

def pointsAt (points : List (Point α)) (positions : List Nat) : List (Point α) :=
  positions.map fun i => points.getD i []

/-! ### Labels -/

/-- The index of the nearest centre, given the best index and squared distance before centre `i`. Only
    finite distances count, and of several nearest centres the first is taken. -/
@[specialize]
def nearestFrom (x : Point α) : List (Point α) → Nat → Option (Nat × α) → Nat
  | [], _, best => (best.map Prod.fst).getD 0
  | centre :: rest, i, best =>
    let d := Point.squaredDistance x centre
    let closer := match best with
      | some (_, distance) => decide (d < distance)
      | none => Scalar.isFinite d
    nearestFrom x rest (i + 1) (if closer then some (i, d) else best)

@[specialize]
def nearestCentre (x : Point α) (centres : List (Point α)) : Nat :=
  nearestFrom x centres 0 none

/-- The label of each point: the index of its nearest centre. -/
@[specialize]
def assign (points : List (Point α)) (centres : List (Point α)) : List Nat :=
  points.map fun x => nearestCentre x centres

/-! ### Centres -/

/-- The points with a given label, in order. -/
def members (points : List (Point α)) (labels : List Nat) (label : Nat) : List (Point α) :=
  ((points.zip labels).filter fun (_, l) => l == label).map Prod.fst

/-- The mean of a list of points: the coordinates summed in order, then divided by the number of
    points. -/
@[specialize]
def meanPoint (dimension : Nat) (points : List (Point α)) : Point α :=
  (points.foldl (fun total x => List.zipWith (fun s c => s + c) total x)
    (List.replicate dimension 0.0)).map fun s => s / (points.length : α)

/-- The later of two positions with distances, unless the earlier one is at least as far. -/
@[specialize]
def fartherOf (best : Option (Nat × α)) (i : Nat) (d : α) : Option (Nat × α) :=
  match best with
  | some (_, distance) => if d ≤ distance then best else some (i, d)
  | none => some (i, d)

/-- The position, among those not taken, of the point farthest from its own centre. -/
@[specialize]
def farthestPosition? (points : List (Point α)) (labels : List Nat) (centres : List (Point α))
    (taken : List Nat) : Option Nat :=
  (((points.zip labels).zipIdx.filter fun (_, i) => !taken.contains i).foldl
    (fun best ((x, label), i) =>
      fartherOf best i (Point.squaredDistance x (centres.getD label []))) none).map Prod.fst

/-- The new centres of the clusters from `label` on, where the positions in `taken` have gone to empty
    clusters already. -/
@[specialize]
def updateFrom (points : List (Point α)) (labels : List Nat) (centres : List (Point α))
    (dimension : Nat) : List (Point α) → Nat → List Nat → List (Point α)
  | [], _, _ => []
  | previous :: rest, label, taken =>
    match members points labels label with
    | [] =>
      match farthestPosition? points labels centres taken with
      | some i =>
        points.getD i [] :: updateFrom points labels centres dimension rest (label + 1) (i :: taken)
      | none => previous :: updateFrom points labels centres dimension rest (label + 1) taken
    | group => meanPoint dimension group
        :: updateFrom points labels centres dimension rest (label + 1) taken

/-- The new centres: the mean of each cluster. An empty cluster takes the point that is farthest from
    its own centre and has not gone to another empty cluster. -/
@[specialize]
def updateCentres (points : List (Point α)) (labels : List Nat) (centres : List (Point α)) :
    List (Point α) :=
  updateFrom points labels centres (centres.headD []).length centres 0 []

/-! ### The rounds -/

/-- Centres and labels between two rounds. -/
structure Partition (α : Type) where
  centres : List (Point α)
  labels : List Nat
  deriving DecidableEq, Repr

/-- The partition after one round. -/
@[specialize]
def Partition.next (points : List (Point α)) (p : Partition α) : Partition α :=
  let centres := updateCentres points p.labels p.centres
  ⟨centres, assign points centres⟩

/-- Where the rounds ended. -/
structure Settled (α : Type) where
  partition : Partition α
  iterations : Nat
  converged : Bool
  deriving DecidableEq, Repr

/-- At most `rounds` more rounds after `done` of them, up to the first that leaves all labels as they
    were. -/
@[specialize]
def settle (points : List (Point α)) : Nat → Nat → Partition α → Settled α
  | 0, done, p => ⟨p, done, false⟩
  | rounds + 1, done, p =>
    let next := p.next points
    if next.labels = p.labels then ⟨next, done + 1, true⟩ else settle points rounds (done + 1) next

/-- The sum of the squared distances of the points from their centres. -/
@[specialize]
def inertia (points : List (Point α)) (p : Partition α) : α :=
  Scalar.sum (List.zipWith
    (fun x label => Point.squaredDistance x (p.centres.getD label [])) points p.labels)

@[specialize]
def startPartition (seed : UInt64) (points : List (Point α)) (k : Nat) : Partition α :=
  let centres := pointsAt points (startPositions seed points k)
  ⟨centres, assign points centres⟩

/-- Why a list of points cannot be clustered into `k` clusters, if it cannot. -/
def clusteringFault? (points : List (Point α)) (k : Nat) : Option TuneError :=
  if k = 0 then some (.invalidRequest .noClusters)
  else if points.length < k then some (.insufficientData points.length k)
  else
    let dimension := (points.headD []).length
    (points.find? fun x => x.length != dimension).map fun x => .shapeMismatch dimension x.length

/-- The clustering of a list of points into `k` clusters. -/
@[specialize]
def cluster (config : ClusteringConfig) (points : List (Point α)) (k : Nat) :
    Except TuneError (Clustering α) :=
  match clusteringFault? points k with
  | some e => .error e
  | none =>
    let settled := settle points config.maxIterations 0 (startPartition config.seed points k)
    .ok {
      centres := settled.partition.centres
      labels := settled.partition.labels
      iterations := settled.iterations
      converged := settled.converged
      inertia := inertia points settled.partition
      precision := config.precision }

end DelayTuning
