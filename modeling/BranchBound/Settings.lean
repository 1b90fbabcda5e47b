import BranchBound.Error
import BranchBound.Scalar

/-!
# Settings

The limits, tolerances and outputs of a search, and the check that the tolerances make sense
(`Settings.check`).
-/

namespace BranchBound

structure Settings (α : Type) where
  /-- Once this many iterations are counted no further node is solved. -/
  maxIterations : Nat
  /-- Counting more iterations than this ends the whole search. -/
  iterationCeiling : Nat
  /-- Milliseconds after which no further node is solved. -/
  timeLimit : Option Nat
  /-- A node has to beat the incumbent by this share of it. -/
  relativeGap : α
  /-- A node has to beat the incumbent by at least this much. -/
  absoluteGap : α
  /-- A value this near to a whole number counts as whole. -/
  integrality : α
  /-- Check every point of a relaxation against the problem. -/
  validate : Bool
  /-- Skip a node whose box was seen before. -/
  dedup : Bool
  /-- Number of workers; zero stands for one per core. -/
  threads : Nat
  /-- Report progress. -/
  verbose : Bool
  /-- Report progress once in this many solved nodes. -/
  logFrequency : Nat
  /-- Report how every node ended. -/
  trace : Bool

namespace Settings

variable {α : Type} [Scalar α]

/-- A million iterations, a relative gap of a hundredth of a percent, and no output. -/
def standard : Settings α where
  maxIterations := 1000000
  iterationCeiling := UInt64.size - 1
  timeLimit := none
  relativeGap := 1e-4
  absoluteGap := 0.0
  integrality := 1e-6
  validate := false
  dedup := false
  threads := 0
  verbose := false
  logFrequency := 100
  trace := false

/-- The standard settings, with a report for every solved node. -/
def talkative : Settings α := { standard with verbose := true, logFrequency := 1 }

/-- Sets the time limit, given in seconds, to whole milliseconds. -/
def withTimeLimit (s : Settings α) (seconds : α) : Settings α :=
  { s with timeLimit := some (Scalar.toNat (seconds * 1000.0)) }

/-- A tolerance is usable if it is finite and not negative. -/
def checkTolerance (tolerance : Tolerance) (value : α) : Except (Error α) Unit :=
  if !Scalar.isFinite value || value < 0.0 then .error (.settings (.unusable tolerance value))
  else .ok ()

/-- Finds the first fault: an unusable tolerance in the order of the fields, then an integrality
tolerance of a half or more, then a log frequency of zero. -/
def check (s : Settings α) : Except (Error α) Unit := do
  checkTolerance .relativeGap s.relativeGap
  checkTolerance .absoluteGap s.absoluteGap
  checkTolerance .integrality s.integrality
  if 0.5 ≤ s.integrality then throw (.settings (.integralityTooLoose s.integrality))
  if s.logFrequency = 0 then throw (.settings .zeroLogFrequency)

/-- Whether a number can serve as a tolerance. -/
def Usable (value : α) : Prop := Scalar.isFinite value = true ∧ ¬value < 0.0

theorem checkTolerance_eq_ok_iff (tolerance : Tolerance) {value : α} :
    checkTolerance tolerance value = .ok () ↔ Usable value := by
  unfold checkTolerance Usable
  split
  · rename_i hfault
    rw [Bool.or_eq_true, Bool.not_eq_true', decide_eq_true_iff] at hfault
    constructor
    · intro h
      cases h
    · rintro ⟨hfinite, hnonneg⟩
      rcases hfault with hinfinite | hneg
      · rw [hfinite] at hinfinite
        cases hinfinite
      · exact absurd hneg hnonneg
  · rename_i hok
    rw [Bool.or_eq_true, Bool.not_eq_true', decide_eq_true_iff, not_or, Bool.not_eq_false] at hok
    exact ⟨fun _ => hok, fun _ => rfl⟩

/-- The check is passed by usable tolerances, below a half for integrality, and a log frequency. -/
theorem check_eq_ok_iff {s : Settings α} : s.check = .ok () ↔
    Usable s.relativeGap ∧ Usable s.absoluteGap ∧ Usable s.integrality ∧ ¬0.5 ≤ s.integrality ∧
      s.logFrequency ≠ 0 := by
  rw [← checkTolerance_eq_ok_iff .relativeGap,
    ← checkTolerance_eq_ok_iff .absoluteGap,
    ← checkTolerance_eq_ok_iff .integrality]
  unfold check
  simp only [bind, Except.bind, throw, throwThe, MonadExceptOf.throw]
  cases checkTolerance .relativeGap s.relativeGap with
  | error e => simp
  | ok _ =>
    cases checkTolerance .absoluteGap s.absoluteGap with
    | error e => simp
    | ok _ =>
      cases checkTolerance .integrality s.integrality with
      | error e => simp
      | ok _ =>
        by_cases hhalf : 0.5 ≤ s.integrality
        · simp [hhalf]
        · by_cases hlog : s.logFrequency = 0
          · simp [hhalf, hlog]
          · simp [hhalf, hlog, pure, Except.pure]

end Settings

end BranchBound
