/-!
# Errors

Everything that can go wrong, by its cause. A fault of a problem or of the settings is found before
a search starts; passing the ceiling on iterations ends one; an access out of range or a division by
zero is a call that breaks its contract. What a message says is in `BranchBound.Error.Message`.
-/

namespace BranchBound

/-- What is wrong with a problem. -/
inductive ProblemFault where
  | unknownVariable (var size : Nat)
  | invalidBound (var : Nat)
  | rowLength (length size : Nat)
  | rowNotFinite
  | tooManyRows (count : Nat)
  /-- A fault that a caller's own check found. -/
  | other (reason : String)
  deriving DecidableEq

/-- The settings that are tolerances. -/
inductive Tolerance where
  | relativeGap
  | absoluteGap
  | integrality
  deriving DecidableEq

/-- What is wrong with the settings. -/
inductive SettingsFault (α : Type) where
  /-- A tolerance is negative or not finite. -/
  | unusable (tolerance : Tolerance) (value : α)
  /-- With an integrality tolerance of a half everything is whole. -/
  | integralityTooLoose (value : α)
  | zeroLogFrequency
  /-- A fault that a caller's own check found. -/
  | other (reason : String)
  deriving DecidableEq

inductive Error (α : Type) where
  | problem (fault : ProblemFault)
  | settings (fault : SettingsFault α)
  /-- The count of iterations passed its ceiling. -/
  | ceilingPassed (count ceiling : Nat)
  /-- The workers could not be started. -/
  | workers (reason : String)
  | internal (reason : String)
  | outOfRange (index size : Nat)
  | divisionByZero
  deriving DecidableEq

/-- The entry at an index, or the error that there is none. -/
def entry {α β : Type} (xs : Array β) (i : Nat) : Except (Error α) β :=
  if h : i < xs.size then .ok xs[i] else .error (.outOfRange i xs.size)

/-- Changes the entry at an index, or gives the error that there is none. -/
def change {α β : Type} (xs : Array β) (i : Nat) (f : β → β) : Except (Error α) (Array β) :=
  if h : i < xs.size then .ok (xs.set i (f xs[i])) else .error (.outOfRange i xs.size)

/-! ## Steps in a row -/

section

variable {ε β γ : Type} {x : Except ε β}

theorem bind_eq_ok {f : β → Except ε γ} {c : γ} :
    x >>= f = .ok c ↔ ∃ b, x = .ok b ∧ f b = .ok c := by
  cases x with
  | error e =>
    constructor
    · intro h
      cases h
    · rintro ⟨b, hb, -⟩
      cases hb
  | ok b =>
    refine ⟨fun h => ⟨b, rfl, h⟩, ?_⟩
    rintro ⟨b', hb, h⟩
    rwa [← Except.ok.inj hb] at h

theorem map_eq_ok {f : β → γ} {c : γ} : x.map f = .ok c ↔ ∃ b, x = .ok b ∧ c = f b := by
  cases x with
  | error e =>
    constructor
    · intro h
      cases h
    · rintro ⟨b, hb, -⟩
      cases hb
  | ok b =>
    refine ⟨fun h => ⟨b, rfl, (Except.ok.inj h).symm⟩, ?_⟩
    rintro ⟨b', hb, rfl⟩
    rw [Except.ok.inj hb]
    rfl

end

end BranchBound
