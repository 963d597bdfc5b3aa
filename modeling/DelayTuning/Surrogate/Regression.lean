import DelayTuning.Surrogate.Factor

/-!
# Gaussian process regression

Regression with a squared-exponential kernel on points of the unit cube. The targets are standardized,
and the diagonal of the kernel matrix gets a jitter that grows until the matrix has a factor.

## Main definitions

- `KernelConfig`: length scale, signal variance and noise
- `kernel`: the squared-exponential kernel
- `medianDistance`: the length scale that is used when none is given
- `Regression.fit?`: the model of a list of points and values
- `Regression.predict`: the mean and the deviation of the model at a point
-/

namespace DelayTuning

/-- The parameters of the kernel. -/
structure KernelConfig (α : Type) where
  /-- The length scale in the unit cube; without one it is the median distance of the points. -/
  lengthScale : Option α
  signalVariance : α
  /-- The noise on the diagonal of the kernel matrix, in standardized units. -/
  noise : α
  deriving DecidableEq, Repr

def KernelConfig.map {α β : Type} (f : α → β) (config : KernelConfig α) : KernelConfig β where
  lengthScale := config.lengthScale.map f
  signalVariance := f config.signalVariance
  noise := f config.noise

variable {α : Type} [RealScalar α]

@[specialize]
def kernel (signalVariance lengthScale : α) (a b : Point α) : α :=
  signalVariance *
    RealScalar.exp (-0.5 * Point.squaredDistance a b / (lengthScale * lengthScale))

/-- The positive distances between a point and each point of a list. -/
@[specialize]
def positiveDistances (a : Point α) (points : List (Point α)) : List α :=
  (points.map fun b => RealScalar.sqrt (Point.squaredDistance a b)).filter fun d => decide (0.0 < d)

/-- The positive distances between two points of a list, each pair once. -/
@[specialize]
def pairDistances : List (Point α) → List α
  | [] => []
  | a :: rest => positiveDistances a rest ++ pairDistances rest

/-- The median of the positive distances between two points, the upper one of two middle ones. Without
    a positive distance it is half the diagonal of the cube. -/
@[specialize]
def medianDistance (points : List (Point α)) (dimension : Nat) : α :=
  let distances := pairDistances points
  match (distances.mergeSort fun a b => decide (a ≤ b))[distances.length / 2]? with
  | some d => d
  | none => 0.5 * RealScalar.sqrt (dimension : α)

/-- A matrix with a number added to each entry of the diagonal, from row `i` on. -/
@[specialize]
def addToDiagonal (x : α) : Nat → List (List α) → List (List α)
  | _, [] => []
  | i, row :: rest => row.modify i (fun d => d + x) :: addToDiagonal x (i + 1) rest

/-- A factor of the matrix with a jitter on its diagonal, and that jitter. `added` is the jitter that
    the matrix already carries. If there is no factor the jitter is made ten times larger, at most
    `tries` times in all. -/
@[specialize]
def jitteredFactor? : Nat → List (List α) → α → α → Option (List (TriangularRow α) × α)
  | 0, _, _, _ => none
  | tries + 1, matrix, added, jitter =>
    let matrix := addToDiagonal (jitter - added) 0 matrix
    match factor? matrix with
    | some rows => some (rows, jitter)
    | none => jitteredFactor? tries matrix jitter (jitter * 10.0)

/-- A model that is fit on points and values. -/
structure Regression (α : Type) where
  inputs : List (Point α)
  rows : List (TriangularRow α)
  jitter : α
  weights : List α
  lengthScale : α
  valueMean : α
  /-- The standard deviation of the values, one if they do not differ. -/
  valueDeviation : α
  deriving DecidableEq, Repr

namespace Regression

@[specialize]
def mean (values : List α) : α :=
  Scalar.sum values / (values.length : α)

/-- The standard deviation of a list of values with the given mean; one if it is next to nothing. -/
@[specialize]
def deviation (values : List α) (centre : α) : α :=
  let root := RealScalar.sqrt
    (Scalar.sum (values.map fun y => (y - centre) * (y - centre)) / (values.length : α))
  if 1e-12 < root then root else 1.0

/-- The values moved and scaled to mean zero and deviation one. -/
@[specialize]
def standardize (values : List α) (centre spread : α) : List α :=
  values.map fun y => (y - centre) / spread

@[specialize]
def kernelMatrix (signalVariance lengthScale : α) (inputs : List (Point α)) : List (List α) :=
  inputs.map fun a => inputs.map fun b => kernel signalVariance lengthScale a b

def jitterTries : Nat := 8

/-- The least jitter that is tried first. -/
@[specialize]
def firstJitter (config : KernelConfig α) : α :=
  Scalar.maxNum config.noise 1e-10

/-- The model of points of the unit cube and their values; `none` if the kernel matrix has no factor
    with any of the jitters. -/
@[specialize]
def fit? (config : KernelConfig α) (dimension : Nat) (inputs : List (Point α)) (values : List α) :
    Option (Regression α) :=
  let centre := mean values
  let spread := deviation values centre
  let lengthScale := config.lengthScale.getD (medianDistance inputs dimension)
  let matrix := kernelMatrix config.signalVariance lengthScale inputs
  match jitteredFactor? jitterTries matrix 0.0 (firstJitter config) with
  | some (rows, jitter) =>
    some {
      inputs := inputs
      rows := rows
      jitter := jitter
      weights := solveUpper rows (solveLower rows (standardize values centre spread))
      lengthScale := lengthScale
      valueMean := centre
      valueDeviation := spread }
  | none => none

/-- The variance of the model at a point of the unit cube, in standardized units. -/
@[specialize]
def variance (model : Regression α) (signalVariance : α) (similarities : List α) : α :=
  let v := solveLower model.rows similarities
  Scalar.maxNum (signalVariance - Point.dot v v) 0.0

/-- The mean and the standard deviation of the model at a point of the unit cube. -/
@[specialize]
def predict (model : Regression α) (signalVariance : α) (u : Point α) : α × α :=
  let similarities := model.inputs.map fun x => kernel signalVariance model.lengthScale u x
  (model.valueMean + model.valueDeviation * Point.dot similarities model.weights,
    model.valueDeviation * RealScalar.sqrt (model.variance signalVariance similarities))

end Regression

end DelayTuning
