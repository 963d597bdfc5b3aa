import DelayTuning.Command.Transcript

/-!
# The command for clustering

The best points of all logs are clustered, and the table of the clusters is written.

## Main definitions

- `LogFile`: a log with its bytes, or why there are none
- `ClusterSettings`: the settings of the command
- `readLogs`: the report on a list of logs
- `ClusterSettings.transcript`: all that the command writes
-/

namespace DelayTuning

/-- The bytes of a log, or why it has none. -/
inductive LogContent where
  /-- The log cannot be opened. -/
  | unopened (cause : String)
  /-- The log is open but cannot be read. -/
  | unreadable (cause : String)
  | bytes (bytes : ByteArray)

/-- A log with its name. -/
structure LogFile where
  path : String
  content : LogContent

def LogFile.report (file : LogFile) : Except CommandFault LogReport :=
  match file.content with
  | .unopened cause => .error (.cannotOpen file.path cause)
  | .unreadable cause => .error (.cannotRead file.path cause)
  | .bytes bytes =>
    match MarkerParser.standard.readBytes? file.path bytes with
    | some report => .ok report
    | none => .error (.cannotRead file.path MarkerParser.invalidBytesMessage)

/-- The reports on logs after the report so far; the first log without a report ends the reading. -/
def readLogsAfter : LogReport → List LogFile → Except CommandFault LogReport
  | merged, [] => .ok merged
  | merged, file :: rest =>
    match file.report with
    | .ok report => readLogsAfter (merged.merge report) rest
    | .error fault => .error fault

/-- The report on a list of logs, in their order. -/
def readLogs (files : List LogFile) : Except CommandFault LogReport :=
  readLogsAfter .empty files

/-- The settings of the command. -/
structure ClusterSettings where
  clusters : Nat
  seed : UInt64
  deriving DecidableEq, Repr

namespace ClusterSettings

/-- The settings of an environment. The first variable without a number ends the command. -/
def ofEnvironment (env : Environment) : Except CommandFault ClusterSettings := do
  let clusters ← env.count "DELAY_TUNE_CLUSTERS" "3"
  let seed ← env.count "DELAY_TUNE_SEED" "0"
  .ok { clusters, seed := .ofNat seed }

def report (s : ClusterSettings) (logs : LogReport) : ClusterReport :=
  .ofLogs logs { ClusteringConfig.standard with seed := s.seed } s.clusters

def writing (r : ClusterReport) : Transcript :=
  { out := r.out
    diagnostics := r.diagnostics
    fault := match r.result with
      | .ok _ => none
      | .error cause => some (.report cause) }

/-- All that the command writes for a list of logs. -/
def transcript (s : ClusterSettings) (files : List LogFile) : Transcript :=
  if files.isEmpty then .ofFault .noLogs
  else
    match readLogs files with
    | .ok logs => writing (s.report logs)
    | .error fault => .ofFault fault

end ClusterSettings

end DelayTuning
