import BranchBound.Bench.Session
import Std.Time.Format

/-!
# The command line

Solves a generated knapsack and prints what `BranchBound.Bench.Session` has to say about it. Log
lines are printed as they come up, with the time of day in front, and the search is timed.
-/

namespace BranchBound.Bench

def printLines (stream : IO.FS.Stream) (lines : List String) : IO Unit :=
  lines.forM stream.putStrLn

/-- Prints log lines under the present time. -/
def log (lines : List Log.Line) : IO Unit := do
  let now ← Std.Time.Timestamp.now
  let time := (Std.Time.DateTime.ofTimestamp now .UTC).toISO8601String
  printLines (← IO.getStderr) (lines.map (logEntry time))

/-- Logs the events of a journal from one index on. -/
def logFrom (s : Session) (journal : Array (Event Float)) (first : Nat) : IO Unit :=
  log (s.logged (journal.extract first journal.size))

/-- Visits node after node under the clock that started at `began`. -/
partial def drive (s : Session) (began : Nat) (r : Run Float) (shown : Nat) :
    IO (Except (Error Float) (Report Float)) := do
  logFrom s r.journal shown
  let elapsed := (← IO.monoMsNow) - began
  match r.step s.search elapsed with
  | .error e => return .error e
  | .ok (some next) => drive s began next r.journal.size
  | .ok none =>
    let report := r.finish elapsed
    logFrom s report.journal r.journal.size
    return .ok report

/-- Solves the knapsack of a session and prints the record. -/
def solveSession (s : Session) : IO UInt32 := do
  log [s.opening]
  let began ← IO.monoMsNow
  let wall ← IO.monoNanosNow
  let opened := do
    s.search.settings.check
    s.search.start none
  let result ← match opened with
    | .error e => pure (.error e)
    | .ok r => drive s began r 0
  match result with
  | .error e =>
    printLines (← IO.getStderr) (failure "Solve failed" e)
    return 1
  | .ok report =>
    let wallTime := Float.ofNat ((← IO.monoNanosNow) - wall) / 1000000.0
    printLines (← IO.getStdout) (s.output report.solution wallTime)
    return 0

/-- Runs a command line and gives the exit code. -/
def command (args : List String) : IO UInt32 := do
  match Options.ofArguments? args with
  | none =>
    IO.eprintln "error: invalid command line"
    return 2
  | some o =>
    match Session.ofOptions o with
    | .error lines =>
      printLines (← IO.getStderr) lines
      return 1
    | .ok s => solveSession s

end BranchBound.Bench

def main (args : List String) : IO UInt32 := BranchBound.Bench.command args
