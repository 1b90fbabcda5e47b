import BranchBound.Decimal.Layout
import BranchBound.Error.Message
import BranchBound.Node.Text
import BranchBound.Search.Event

/-!
# Log lines

The line that an event is shown as, if the settings show it: warnings and errors always, reports on
the progress when the settings are verbose, and the end of every node when they trace. Objective
values are written with six places after the point, in scientific form.
-/

namespace BranchBound

namespace Log

inductive Level where
  | error
  | warn
  | info
  | trace
  deriving DecidableEq

def Level.name : Level → String
  | error => "ERROR"
  | warn => "WARN"
  | info => "INFO"
  | trace => "TRACE"

/-- Which part of the program speaks. -/
inductive Origin where
  /-- The search as a whole. -/
  | search
  /-- A visit of a node. -/
  | visit
  /-- The command line. -/
  | command
  deriving DecidableEq

structure Line where
  level : Level
  origin : Origin
  text : String

end Log

def Verdict.name : Verdict → String
  | optimal => "Optimal"
  | feasible => "Feasible"
  | infeasible => "Infeasible"
  | failed => "Failed"
  | unexplored => "Unexplored"

def Direction.name : Direction → String
  | down => "Down"
  | up => "Up"

namespace Event

open Decimal Log

/-- Milliseconds as seconds with a number of places. -/
def seconds (places milliseconds : Nat) : String :=
  fixed places (Float.ofNat milliseconds / 1000.0) ++ "s"

/-- An objective value. -/
def value (objective : Float) : String := scientific 6 objective

def level : Event Float → Level
  | invalidPoint .. => .error
  | warmStartIgnored => .warn
  | aborted .. => .warn
  | called .. => .trace
  | closed .. => .trace
  | branched .. => .trace
  | ceilingPassed .. => .trace
  | _ => .info

def origin : Event Float → Origin
  | warmStartIgnored => .search
  | warmStartAccepted .. => .search
  | started .. => .search
  | aborted .. => .search
  | finished .. => .search
  | _ => .visit

/-- The text of an event. A call and the node that passed the ceiling have none. -/
def text? : Event Float → Option String
  | warmStartIgnored =>
    some "Ignoring warm start: not an integer-feasible solution of the model"
  | warmStartAccepted objective => some s!"Warm start accepted: obj={value objective}"
  | started size integers threads =>
    some s!"Branch-and-bound: {size} variables, {integers} integer, {threads} threads"
  | called .. => none
  | progress solved iterations incumbent offers elapsed =>
    let best := value (incumbent.getD Scalar.nan)
    some (s!"Nodes: {solved} | Iterations: {iterations} | Incumbent: {best} | " ++
      s!"Solutions: {offers} | Time: {seconds 1 elapsed}")
  | invalidPoint verdict node =>
    some (s!"Node relaxation reported {verdict.name} but the solution is invalid, " ++
      s!"abandoning branch {node.text}")
  | improved objective depth => some s!"New incumbent: obj={value objective} at depth {depth}"
  | closed node fate => some s!"Node {node.text} -> {fate.name}"
  | branched node b direction =>
    some (s!"Node {node.text} -> {Fate.branched.name} on x{b.var} = {plain b.value} " ++
      s!"(continue {direction.name})")
  | ceilingPassed .. => none
  | aborted count ceiling =>
    let error : Error Float := .ceilingPassed count ceiling
    some s!"Search aborted: {error.message}"
  | finished status objective solved offers elapsed =>
    some (s!"Finished: {status.name} | Obj: {value objective} | Nodes: {solved} | " ++
      s!"Solutions: {offers} | Time: {seconds 3 elapsed}")

/-- Whether the settings show lines of a level. -/
def shows (s : Settings Float) : Level → Bool
  | .error => true
  | .warn => true
  | .info => s.verbose
  | .trace => s.trace

def line? (s : Settings Float) (e : Event Float) : Option Line :=
  if shows s e.level then e.text?.map fun text => ⟨e.level, e.origin, text⟩ else none

end Event

/-- The lines of a journal under given settings. -/
def linesOf (s : Settings Float) (journal : Array (Event Float)) : List Log.Line :=
  journal.toList.filterMap (·.line? s)

end BranchBound
