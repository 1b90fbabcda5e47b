import BranchBound.Decimal.Layout
import BranchBound.Log
import BranchBound.Search.Solution

/-!
# Benchmark records

What is reported about the solution of a generated knapsack, as a summary to read or as one JSON
object. In the object every list entry has a line of its own and a list without entries has none.
-/

namespace BranchBound.Bench

structure Record (α : Type) where
  items : Nat
  seed : Nat
  threads : Nat
  capacity : α
  status : Status
  objective : α
  /-- The items that were taken. -/
  selected : List Nat
  solved : Nat
  offers : Nat
  improvements : Nat
  iterations : Nat
  /-- Milliseconds, as the search counts them. -/
  solveTime : Nat
  /-- Milliseconds, as the caller measures them. -/
  wallTime : Float

/-- The indices of the values above a half. -/
def selectedItems {α : Type} [Scalar α] (x : Array α) : List Nat :=
  (x.toList.zipIdx.filter fun (v, _) => decide (0.5 < v)).map Prod.snd

/-! ## The object -/

/-- The lines of an object's fields, given by name and value; a value is one text or a list. -/
inductive Field where
  | one (name value : String)
  | many (name : String) (values : List String)

/-- Appends a comma to every line but the last. -/
def withCommas : List String → List String
  | [] => []
  | [line] => [line]
  | line :: rest => (line ++ ",") :: withCommas rest

def quoted (name : String) : String := "\"" ++ name ++ "\""

def Field.lines : Field → List String
  | one name value => ["  " ++ quoted name ++ ": " ++ value]
  | many name [] => ["  " ++ quoted name ++ ": []"]
  | many name values =>
    ["  " ++ quoted name ++ ": ["] ++ (withCommas values).map ("    " ++ ·) ++ ["  ]"]

/-- Appends a comma to the last line of every field but the last. -/
def objectBody : List Field → List String
  | [] => []
  | [field] => field.lines
  | field :: rest =>
    let lines := field.lines
    lines.dropLast ++ (lines.getLast?.toList.map (· ++ ",")) ++ objectBody rest

def Record.fields (r : Record Float) : List Field :=
  [ .one "items" (toString r.items),
    .one "seed" (toString r.seed),
    .one "threads" (toString r.threads),
    .one "capacity" (Decimal.record r.capacity),
    .one "status" (quoted r.status.name),
    .one "obj_val" (Decimal.record r.objective),
    .many "selected" (r.selected.map toString),
    .one "nodes_explored" (toString r.solved),
    .one "integer_solutions" (toString r.offers),
    .one "incumbent_updates" (toString r.improvements),
    .one "iterations" (toString r.iterations),
    .one "solve_time_ms" (toString r.solveTime),
    .one "wall_time_ms" (Decimal.record r.wallTime) ]

/-- The object, line by line. -/
def Record.object (r : Record Float) : List String :=
  ["\x7b"] ++ objectBody r.fields ++ ["\x7d"]

/-! ## The summary -/

def rule : String := "".pushn '=' 60

def Record.summary (r : Record Float) : List String :=
  [ "",
    rule,
    s!"Knapsack (n={r.items}, seed={r.seed})",
    rule,
    s!"Status:           {r.status.name}",
    s!"Objective:        {Decimal.scientific 6 r.objective}",
    s!"Items selected:   {r.selected.length}",
    s!"Nodes explored:   {r.solved}",
    s!"Integer sols:     {r.offers}",
    s!"Incumbent moves:  {r.improvements}",
    s!"Iterations:       {r.iterations}",
    s!"Solve time:       {r.solveTime} ms",
    s!"Wall time:        {Decimal.fixed 3 r.wallTime} ms" ] ++
  if r.solved = 0 then []
  else
    let perNode := r.wallTime / Float.ofNat r.solved
    [s!"Time/node:        {Decimal.fixed 3 perNode} ms"]

end BranchBound.Bench
