/-!
Bounds on an exploration.
-/

namespace Staged

structure Limits where
  maxStates : Nat
  maxPathLength : Nat
  /-- Lets the states of a frontier be expanded side by side. The result is the same. -/
  parallel : Bool
  deriving DecidableEq, Repr, Inhabited

end Staged
