import BranchBound.Bench.Arguments
import BranchBound.Bench.Instance
import BranchBound.Bench.Record
import BranchBound.Error.Message
import BranchBound.Log
import BranchBound.Relaxation.OneRow
import BranchBound.Search.Solution

/-!
# A benchmark session

From a command line to what is printed: the options are turned into settings and a generated
knapsack, the knapsack is solved, and a record of the solution is printed. Log lines and errors go
to the second stream. `transcript` is the whole session without a clock of its own.
-/

namespace BranchBound.Bench

/-- A generated knapsack that is ready to be solved. -/
structure Session where
  options : Options
  drawn : Instance Float
  search : Search Float

/-- What a session printed. -/
structure Transcript where
  exitCode : Nat
  output : List String := []
  errors : List String := []

/-- A log line, with the time in front if there is one. -/
def logEntry (time : String) (line : Log.Line) : String :=
  let level := line.level.name
  let padded := level ++ "".pushn ' ' (5 - level.length)
  let origin := match line.origin with
    | .search => "bnb_mip::search::tree"
    | .visit => "bnb_mip::search::task"
    | .command => "bnb_bench"
  "[" ++ (if time = "" then "" else time ++ " ") ++ padded ++ " " ++ origin ++ "] " ++ line.text

/-- An error that says what failed and why. -/
def failure (what : String) (cause : Error Float) : List String :=
  ["Error: " ++ what, "", "Caused by:", "    " ++ cause.message]

def Options.settings (o : Options) : Settings Float :=
  let s : Settings Float :=
    { Settings.standard with threads := o.threads, dedup := o.dedup, verbose := o.verbose }
  let s := match o.timeLimit with
    | some seconds => s.withTimeLimit seconds
    | none => s
  let s := match o.maxIterations with
    | some n => { s with maxIterations := n }
    | none => s
  match o.gap with
  | some gap => { s with relativeGap := gap }
  | none => s

namespace Session

/-- Generates the knapsack, or gives the lines of the error. -/
def ofOptions (o : Options) : Except (List String) Session := do
  if o.items = 0 then throw ["Error: --items must be at least 1"]
  let drawn ← (Instance.generate o.items (UInt64.ofNat o.seed)).mapError
    (failure "Failed to build knapsack model")
  let solver ← (OneRow.ofProgram drawn.program).mapError fun e => ["Error: " ++ e.message]
  let search :=
    { problem := drawn.program.problem
      relaxation := solver.relaxation
      settings := o.settings }
  return { options := o, drawn, search }

/-- The line that is logged before the search. -/
def opening (s : Session) : Log.Line :=
  let capacity := Decimal.plain s.drawn.capacity
  ⟨.info, .command,
    s!"Knapsack: {s.options.items} items, capacity {capacity}, seed {s.options.seed}"⟩

/-- The record of a solution. -/
def record (s : Session) (found : Solution Float) (wallTime : Float) : Record Float where
  items := s.options.items
  seed := s.options.seed
  threads := s.options.threads
  capacity := s.drawn.capacity
  status := found.status
  objective := found.objective
  selected := selectedItems found.point
  solved := found.solved
  offers := found.offers
  improvements := found.improvements
  iterations := found.iterations
  solveTime := found.elapsed
  wallTime := wallTime

/-- The lines that are printed about a solution. -/
def output (s : Session) (found : Solution Float) (wallTime : Float) : List String :=
  let r := s.record found wallTime
  if s.options.json then r.object else r.summary

/-- The lines of a journal that are logged: those of level info and above. -/
def logged (s : Session) (journal : Array (Event Float)) : List Log.Line :=
  (linesOf s.search.settings journal).filter (·.level ≠ .trace)

end Session

/-- A whole session. `clock n` are the milliseconds passed before visit `n`, and `wallTime` those
that the solution took. -/
def transcript (args : List String) (clock : Nat → Nat) (wallTime : Float) : Transcript :=
  match Options.ofArguments? args with
  | none => { exitCode := 2 }
  | some o =>
    match Session.ofOptions o with
    | .error lines => { exitCode := 1, errors := lines }
    | .ok s =>
      let opening := logEntry "" s.opening
      match s.search.solve none clock with
      | .error e => { exitCode := 1, errors := opening :: failure "Solve failed" e }
      | .ok report =>
        { exitCode := 0
          output := s.output report.solution wallTime
          errors := opening :: (s.logged report.journal).map (logEntry "") }

end BranchBound.Bench
