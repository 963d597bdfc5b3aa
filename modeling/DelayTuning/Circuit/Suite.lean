/-!
# Benchmark suites

The two suites of benchmark circuits and what is measured of a mapped circuit.

## Main definitions

- `Suite`: the arithmetic and the control suite
- `Suite.circuits`: the circuits of a suite in the order of reports
- `Suite.ofCircuit?`: the suite of a circuit
- `CircuitMetrics`: what is measured of a mapped circuit
-/

namespace DelayTuning

/-- A suite of benchmark circuits. -/
inductive Suite where
  | arithmetic
  | control
  deriving DecidableEq, Repr

namespace Suite

/-- The circuits of a suite, in the order of reports. -/
def circuits : Suite → List String
  | .arithmetic =>
    ["log2", "square", "adder", "sin", "div", "hyp", "max", "sqrt", "multiplier", "bar", "dft",
      "netcard"]
  | .control =>
    ["priority", "cavlc", "arbiter", "i2c", "voter", "int2float", "ctrl", "dec", "mem_ctrl",
      "router"]

def directory : Suite → String
  | .arithmetic => "arithmetic"
  | .control => "random_control"

def label : Suite → String
  | .arithmetic => "arith"
  | .control => "control"

/-- The suite of a circuit, if the circuit is known. -/
def ofCircuit? (name : String) : Option Suite :=
  if Suite.arithmetic.circuits.contains name then some .arithmetic
  else if Suite.control.circuits.contains name then some .control
  else none

end Suite

/-- What is measured of a mapped circuit at a stage. -/
structure CircuitMetrics where
  gates : Nat
  edges : Nat
  level : Nat
  area : Float
  delay : Float
  nldmArea : Float
  nldmDelay : Float
  deriving DecidableEq, Repr

end DelayTuning
