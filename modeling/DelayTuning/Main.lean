import DelayTuning.Command.Cluster
import DelayTuning.Command.Tune
import Std.Time.DateTime.Timestamp

/-!
# The command line

The two commands: `tune` runs searches on the synthetic bowl, and `cluster` clusters the best points of
logs. This module reads the environment, the clock and the files and writes what the commands say.
-/

namespace DelayTuning

/-- The variables of the environment that a command may look at. -/
def environmentKeys : List String :=
  ["DELAY_TUNE_ITERATIONS", "DELAY_TUNE_SEED", "DELAY_TUNE_RUNS", "DELAY_TUNE_FORMAT",
    "DELAY_TUNE_CLUSTERS"]

def processEnvironment : IO Environment := do
  let values ← environmentKeys.mapM fun key => return (key, ← IO.getEnv key)
  return fun key => (values.lookup key).join

def clock : IO Instant := do
  let now ← Std.Time.Timestamp.now
  let nanoseconds := now.toNanosecondsSinceUnixEpoch.val
  return ⟨nanoseconds / 1000000000, (nanoseconds % 1000000000).toNat, .inl (by omega)⟩

/-- Run number `i` with an identifier and the times of its start and end. -/
def runTimed (settings : TuneSettings) (i : Nat) : IO (Except (Halt RunError) RunSummary) := do
  let id := Identifier.ofBytes (← IO.getRandomBytes 16).toList
  let started ← clock
  match settings.runOne i with
  | .ok outcome => return .ok ⟨id, started, ← clock, outcome⟩
  | .error cause => return .error cause

/-- The wording of an error of the operating system, with its number. -/
def causeText : IO.Error → String
  | .noFileOrDirectory _ code details
  | .inappropriateType _ code details
  | .permissionDenied _ code details
  | .invalidArgument _ code details => s!"{details} (os error {code})"
  | cause => toString cause

def readLogFile (path : String) : IO LogFile := do
  match ← (IO.FS.Handle.mk path .read).toBaseIO with
  | .error cause => return ⟨path, .unopened (causeText cause)⟩
  | .ok handle =>
    match ← handle.readBinToEnd.toBaseIO with
    | .error cause => return ⟨path, .unreadable (causeText cause)⟩
    | .ok bytes => return ⟨path, .bytes bytes⟩

def write (t : Transcript) : IO UInt32 := do
  for line in t.out do
    IO.println line
  IO.eprint t.errorText
  return t.exitCode

def tuneCommand (env : Environment) : IO UInt32 := do
  match TuneSettings.ofEnvironment env with
  | .error fault => write (.ofFault fault)
  | .ok settings =>
    let summaries ← (List.range settings.runs).mapM (runTimed settings)
    write (settings.transcript summaries)

def clusterCommand (env : Environment) (paths : List String) : IO UInt32 := do
  match ClusterSettings.ofEnvironment env with
  | .error fault => write (.ofFault fault)
  | .ok settings => write (settings.transcript (← paths.mapM readLogFile))

end DelayTuning

/-- The command line: the name of a command, then the names of logs. -/
def main (args : List String) : IO UInt32 := do
  let env ← DelayTuning.processEnvironment
  match args with
  | "tune" :: _ => DelayTuning.tuneCommand env
  | "cluster" :: paths => DelayTuning.clusterCommand env paths
  | _ =>
    IO.eprintln "usage: delay-tuning tune | delay-tuning cluster <log>..."
    return 2
