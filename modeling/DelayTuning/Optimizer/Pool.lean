import DelayTuning.Decimal.Binary64
import DelayTuning.Ledger
import DelayTuning.Optimizer.Config
import DelayTuning.Random.Repeated
import DelayTuning.Space.Draw

/-!
# The pool of candidates

The candidates among which the next batch is chosen: perturbations of the best observations, then
uniform points.

## Main definitions

- `poolSizeFor`, `localCount`: the size of the pool and of its local part
- `elites`: the best observations
- `perturb`: a point near a given one
- `drawPool`: the whole pool
-/

namespace DelayTuning

/-- The least size of the pool for a batch: what the parameters ask for, and four times the batch. -/
def poolSizeFor (config : OptimizerConfig) (batchSize : Nat) : Nat :=
  max config.poolSize (4 * batchSize)

/-- How many candidates are perturbations of the best observations. -/
def localCount (config : OptimizerConfig) (batchSize : Nat) : Nat :=
  roundToNat (Float.ofNat (poolSizeFor config batchSize) * config.localFraction)

/-- The best observations, at least one and at most as many as the parameters say, the best one
    first. Equal values stay in the order of the ledger. -/
def elites (config : OptimizerConfig) (ledger : Ledger) : List Observation :=
  (ledger.entries.mergeSort fun a b => totalLe a.value b.value).take (max config.eliteCount 1)

/-- The coordinates of a point near `base`: each one is moved by at most `scale` times the width of its
    parameter, and may then lie outside of the bounds. A step that is a NaN decides on the sign. -/
def perturbCoordinates (scale : Double) :
    List (Parameter Double) → Candidate → Generator → Candidate × Generator
  | p :: rest, c :: base, g =>
    let (direction, g) := g.between (-1.0 : Double) 1.0
    let (tail, g) := perturbCoordinates scale rest base g
    ((direction * scale * p.width + c) :: tail, g)
  | _, _, g => ([], g)

/-- A point near `base`, moved back into the bounds. -/
def perturb (space : Space Double) (scale : Double) (base : Candidate) (g : Generator) :
    Candidate × Generator :=
  let (moved, g) := perturbCoordinates scale space.parameters base g
  (space.clamp moved, g)

/-- The local part of a pool: perturbations of the elites in turn. -/
def drawLocal (space : Space Double) (scale : Double) (bases : List Candidate) (count : Nat)
    (g : Generator) : List Candidate × Generator :=
  drawEach (fun i g => perturb space scale (bases.getD (i % bases.length) []) g) (List.range count) g

def drawUniform (space : Space Double) (count : Nat) (g : Generator) :
    Option (List Candidate) × Generator :=
  drawEach? (fun _ g => space.uniform g) (List.replicate count ()) g

/-- The pool for a batch: the local part, filled up with uniform points. -/
def drawPool (space : Space Double) (config : OptimizerConfig) (ledger : Ledger) (batchSize : Nat)
    (g : Generator) : Option (List Candidate) × Generator :=
  let bases := (elites config ledger).map Observation.candidate
  let count := localCount config batchSize
  let (near, g) := drawLocal space (.ofFloat config.perturbationScale) bases count g
  let (far, g) := drawUniform space (poolSizeFor config batchSize - count) g
  (far.map (near ++ ·), g)

end DelayTuning
