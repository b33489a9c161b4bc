import Staged.Division

/-!
What a binding-time analysis sees of a program: points with successors, the variables that each
point defines and uses, and whether the choice at a point can be made under a division. A finite
region holds the entry and is never left.
-/

namespace Staged

structure Flow (P : Type) where
  entry : P
  region : List P
  successors : P → List P
  definitions : P → List Var
  uses : P → List Var
  /-- Whether a division knows enough to choose a successor of the point. -/
  decides : P → Division → Bool
  entry_mem : entry ∈ region
  closed : ∀ p ∈ region, ∀ q ∈ successors p, q ∈ region

end Staged
