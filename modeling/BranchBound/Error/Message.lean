import BranchBound.Decimal.Layout
import BranchBound.Error

/-!
# Error messages

The text of every error. Numbers in it are written with the fewest digits that read back.
-/

namespace BranchBound

namespace ProblemFault

def message : ProblemFault → String
  | unknownVariable var size => s!"Variable {var} out of range, model has {size} variables"
  | invalidBound var => s!"NaN bound on variable {var}"
  | rowLength length size =>
    s!"Constraint has {length} coefficients but model has {size} variables"
  | rowNotFinite => "Constraint coefficients and right-hand side must be finite"
  | tooManyRows count =>
    s!"Knapsack relaxation supports at most one constraint, model has {count}"
  | other reason => reason

end ProblemFault

/-- The name of a tolerance in the settings. -/
def Tolerance.name : Tolerance → String
  | relativeGap => "gap_tol"
  | absoluteGap => "gap_abs_tol"
  | integrality => "int_feas_tol"

namespace SettingsFault

def message : SettingsFault Float → String
  | unusable tolerance value =>
    tolerance.name ++ " must be finite and >= 0, got " ++ Decimal.plain value
  | integralityTooLoose value =>
    Tolerance.integrality.name ++ " must be < 0.5, got " ++ Decimal.plain value
  | zeroLogFrequency => "log_freq must be positive"
  | other reason => reason

end SettingsFault

namespace Error

def message : Error Float → String
  | problem fault => "Invalid problem: " ++ fault.message
  | settings fault => "Invalid settings: " ++ fault.message
  | ceilingPassed count ceiling => s!"Too many iterations: {count} > {ceiling}"
  | workers reason => "Thread pool error: " ++ reason
  | internal reason => "Internal error: " ++ reason
  | outOfRange index size => s!"Index {index} out of range for {size} entries"
  | divisionByZero => "Division by zero"

end Error

end BranchBound
