import BranchBound.Program

/-!
# Generated knapsacks

A knapsack of `n` items drawn from a seed. Weights and values are whole numbers up to 100, and a
value is somewhat above its weight, which makes the items hard to tell apart. The capacity is half
of the total weight, so about half of the items fit.

Numbers are drawn from a linear congruential generator on 64 bits, of which the upper 31 are used.
-/

namespace BranchBound.Bench

/-- The next state of the generator; products and sums wrap. -/
def nextState (s : UInt64) : UInt64 := s * 6364136223846793005 + 1

section

variable {α : Type} [Scalar α]

/-- The number in `[0, 1)` that a state stands for. -/
def unit (s : UInt64) : α :=
  Scalar.ofNat (s >>> 33).toNat / Scalar.ofNat (Nat.pow 2 31)

structure Item (α : Type) where
  weight : α
  value : α

/-- The item drawn after a state: the next two states give its weight and its value. -/
def Item.draw (s : UInt64) : Item α :=
  let s := nextState s
  let weight := Scalar.floor (unit s * 100.0) + 1.0
  let s := nextState s
  let value := Scalar.minNum (Scalar.floor (weight + unit s * 20.0)) 100.0
  { weight, value }

/-- So many items, drawn one after the other. -/
def drawItems : Nat → UInt64 → List (Item α)
  | 0, _ => []
  | n + 1, s => Item.draw s :: drawItems n (nextState (nextState s))

theorem length_drawItems (n : Nat) (s : UInt64) :
    (drawItems (α := α) n s).length = n := by
  induction n generalizing s with
  | zero => rfl
  | succ n ih => simp [drawItems, ih]

/-- A knapsack as a program, and its capacity. -/
structure Instance (α : Type) where
  program : Program α
  capacity : α

/-- The knapsack of given items: their values are maximised, every item is taken or left, and the
weights keep to half of their sum. -/
def Instance.ofItems (items : List (Item α)) : Except (Error α) (Instance α) := do
  let weights := (items.map Item.weight).toArray
  let values := (items.map Item.value).toArray
  let capacity := Scalar.floor (Scalar.sum weights / 2.0)
  let binaries := (List.range items.length).map Program.Step.binary
  let program ← Program.build .maximise values (binaries ++ [.row weights capacity])
  return { program, capacity }

/-- The knapsack of `n` items drawn from a seed. -/
def Instance.generate (n : Nat) (seed : UInt64) : Except (Error α) (Instance α) :=
  Instance.ofItems (drawItems n seed)

end

end BranchBound.Bench
