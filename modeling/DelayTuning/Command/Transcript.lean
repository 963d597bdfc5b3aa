import DelayTuning.Clustering.Report
import DelayTuning.Command.Setting
import DelayTuning.Run.Basic

/-!
# What a command writes

A command writes lines of output and of diagnostics and may then end with a fault. A fault is written
with what was being done, followed by its cause.

## Main definitions

- `CommandFault`: why a command ends early, with `CommandFault.text`
- `Transcript`: all that a command writes
- `Environment.count`: the number of a setting
-/

namespace DelayTuning

/-- Why a command ends early. -/
inductive CommandFault where
  /-- The value of a variable is no number. -/
  | invalidSetting (key : String) (cause : CountFault)
  /-- The command was called without the names of logs. -/
  | noLogs
  /-- A log cannot be opened. -/
  | cannotOpen (path cause : String)
  /-- A log cannot be read. -/
  | cannotRead (path cause : String)
  /-- A run has no outcome. -/
  | run (cause : Halt RunError)
  /-- The points of the logs have no table. -/
  | report (cause : ClusterReportFailure)
  deriving DecidableEq, Repr

namespace CommandFault

/-- What was being done, and the cause if it is told apart. -/
def account : CommandFault → String × Option String
  | .invalidSetting key cause => ("invalid value for " ++ key, some cause.message)
  | .noLogs => ("usage: dt-cluster <log>...", none)
  | .cannotOpen path cause => ("failed to open " ++ path, some cause)
  | .cannotRead path cause => ("failed to read " ++ path, some cause)
  | .run (.refused (.engine cause)) => ((RunError.engine cause).message, some cause.message)
  | .run (.refused error) => (error.message, none)
  | .run .unboundedDraw => ("a parameter has infinite width", none)
  | .report (.clustering points clusters cause) =>
    (clusteringContext points clusters, some cause.message)
  | .report .tooManyPlaces => ("a coordinate has too many places", none)

/-- The text that a command ends with. -/
def text (fault : CommandFault) : String :=
  match fault.account with
  | (context, some cause) => "Error: " ++ context ++ "\n\nCaused by:\n    " ++ cause ++ "\n"
  | (context, none) => "Error: " ++ context ++ "\n"

end CommandFault

/-- All that a command writes. -/
structure Transcript where
  out : List String
  diagnostics : List String
  /-- The fault that ends the command after all lines. -/
  fault : Option CommandFault
  deriving DecidableEq, Repr

namespace Transcript

/-- A command that writes nothing but its fault. -/
def ofFault (fault : CommandFault) : Transcript :=
  ⟨[], [], some fault⟩

/-- The text of the diagnostics, with that of the fault at the end. -/
def errorText (t : Transcript) : String :=
  String.join (t.diagnostics.map (· ++ "\n")) ++ (t.fault.map CommandFault.text).getD ""

def exitCode (t : Transcript) : UInt32 :=
  if t.fault.isSome then 1 else 0

end Transcript

/-- The number of a setting; `default` is the text that counts when the variable is not set. -/
def Environment.count (env : Environment) (key default : String) : Except CommandFault Nat :=
  match readCount ((env key).getD default) with
  | .ok n => .ok n
  | .error cause => .error (.invalidSetting key cause)

end DelayTuning
