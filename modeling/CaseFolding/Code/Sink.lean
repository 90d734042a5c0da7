import CaseFolding.Code.Basic

namespace CaseFolding

/-! # Delivering results

Generated code is the body of a function, which returns its results, or the
arm of a switch, which keeps them in a variable and leaves.
-/

/-- How a result leaves the code. -/
inductive Sink where
  /-- As the value of the enclosing function. -/
  | toCaller
  /-- In a variable, after which the enclosing switch is left. -/
  | toVariable (target : String)
deriving DecidableEq

/-- Delivers a result. -/
def Sink.deliver : Sink → Value → Code
  | .toCaller, v => .next (.ret v) .done
  | .toVariable target, v => .next (.assign target v) (.next .leave .done)

end CaseFolding
