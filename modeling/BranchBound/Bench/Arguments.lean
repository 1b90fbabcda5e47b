import BranchBound.Decimal.Reading

/-!
# Command-line arguments

Options are written `--name value` or `--name=value`, flags `--name`, in any order and each at most
once. A value that begins with a minus sign has to be written with `=`. Nothing else is accepted;
`--` may stand at the end.
-/

namespace BranchBound.Bench

structure Options where
  items : Nat := 30
  seed : Nat := 12345
  threads : Nat := 0
  /-- Seconds. -/
  timeLimit : Option Float := none
  maxIterations : Option Nat := none
  gap : Option Float := none
  dedup : Bool := false
  verbose : Bool := false
  json : Bool := false

namespace Options

/-- A whole number of 64 bits. -/
def word? (text : String) : Option Nat := Decimal.natural? UInt64.size text

/-- Sets the option of a name to the value that a text stands for. -/
def assign? (o : Options) (name value : String) : Option Options :=
  match name with
  | "items" => (word? value).map fun n => { o with items := n }
  | "seed" => (word? value).map fun n => { o with seed := n }
  | "threads" => (word? value).map fun n => { o with threads := n }
  | "time-limit" => (Decimal.double? value).map fun x => { o with timeLimit := some x }
  | "max-iterations" => (word? value).map fun n => { o with maxIterations := some n }
  | "gap" => (Decimal.double? value).map fun x => { o with gap := some x }
  | _ => none

/-- Raises the flag of a name. -/
def raise? (o : Options) (name : String) : Option Options :=
  match name with
  | "dedup" => some { o with dedup := true }
  | "verbose" => some { o with verbose := true }
  | "json" => some { o with json := true }
  | _ => none

/-- The name in an argument, and the value that follows it after an equals sign. -/
def named? (arg : String) : Option (String × Option String) :=
  match arg.toList with
  | '-' :: '-' :: cs =>
    let name := String.ofList (cs.takeWhile (· ≠ '='))
    match cs.dropWhile (· ≠ '=') with
    | [] => some (name, none)
    | _ :: value => some (name, some (String.ofList value))
  | _ => none

/-- Reads arguments into options; `seen` are the names that were used before. -/
def readFrom (o : Options) (seen : List String) : List String → Option Options
  | [] => some o
  | arg :: rest =>
    if arg = "--" then if rest.isEmpty then some o else none
    else
      match named? arg with
      | none => none
      | some (name, value) =>
        if seen.contains name then none
        else
          match o.raise? name, value with
          | some raised, none => readFrom raised (name :: seen) rest
          | some _, some _ => none
          | none, some text => (o.assign? name text).bind fun o => readFrom o (name :: seen) rest
          | none, none =>
            match rest with
            | [] => none
            | text :: rest =>
              if text.startsWith "-" then none
              else (o.assign? name text).bind fun o => readFrom o (name :: seen) rest
termination_by args => args.length

/-- The options of a command line, or nothing if it is not accepted. -/
def ofArguments? (args : List String) : Option Options := readFrom {} [] args

end Options

end BranchBound.Bench
