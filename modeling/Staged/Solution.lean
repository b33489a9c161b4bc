import Staged.Dependency

/-!
The divisions of a dependency graph. Every node starts with the same division, and the dependencies
of the graph are constraints that take knowledge away. They are imposed one after the other, over
and over, until a whole round takes nothing away any more.
-/

namespace Staged

/-- One division for each node, by its number. -/
abbrev Family := Array Division

namespace Family

def get (f : Family) (i : Nat) : Division := f[i]?.getD .empty

/-- Leaves `v` known at node `i` only if `known` holds too. -/
def lower (f : Family) (i : Nat) (v : Var) (known : Bool) : Family := f.modify i (·.meet v known)

/-- The number of known variables of all nodes together. -/
def knownCount (f : Family) : Nat := f.toList.foldr (fun d n => d.knownCount + n) 0

end Family

inductive Constraint where
  /-- Node `i` knows no more than node `source`. -/
  | below (i source : Nat)
  /-- Node `i` knows `v` only if it knows `used`. -/
  | needs (i : Nat) (v used : Var)
  /-- Node `i` knows `v` only if the choice at node `guard` can be made there. -/
  | guarded (i : Nat) (v : Var) (guard : Nat)
  /-- Node `i` does not know `v`. -/
  | never (i : Nat) (v : Var)
  deriving DecidableEq, Repr, Inhabited

variable {P : Type} [DecidableEq P]

/-- The constraints on node `i`. -/
def Node.constraints (i : Nat) (n : Node P) : List Constraint :=
  n.dataDeps.map (.below i) ++ n.definitions.flatMap fun v =>
    n.uses.map (.needs i v) ++ n.loopDeps.map fun
      | .branch guard => .guarded i v guard
      | .unbounded => .never i v

/-- Takes away what a constraint forbids, where `decides` tells whether the choice at a node can be
made. -/
def Constraint.impose (decides : Nat → Division → Bool) (f : Family) : Constraint → Family
  | below i source =>
    let other := f.get source
    f.modify i (·.meetAll other)
  | needs i v used => f.lower i v ((f.get i).isKnown used)
  | guarded i v guard => f.lower i v (decides guard (f.get guard))
  | never i v => f.lower i v false

/-- Imposes every constraint once. -/
def Family.sweep (decides : Nat → Division → Bool) (cs : List Constraint) (f : Family) : Family :=
  cs.foldl (Constraint.impose decides) f

/-- Sweeps until a sweep leaves as much known as there was before it. -/
def Family.settle (decides : Nat → Division → Bool) (cs : List Constraint) (f : Family) : Family :=
  let swept := f.sweep decides cs
  if swept.knownCount < f.knownCount then swept.settle decides cs else swept
  termination_by f.knownCount

/-- The division of each point. -/
structure Solution (P : Type) where
  divisions : List (P × Division)
  deriving Repr

namespace Solution

def size (s : Solution P) : Nat := s.divisions.length

def isEmpty (s : Solution P) : Bool := s.divisions.isEmpty

def get? (s : Solution P) (p : P) : Option Division :=
  (s.divisions.find? (·.1 = p)).map (·.2)

/-- Nothing is known at a point outside the graph. -/
def isKnown (s : Solution P) (p : P) (v : Var) : Bool := (s.get? p).any (·.isKnown v)

end Solution

namespace DependencyGraph

def constraints (g : DependencyGraph P) : List Constraint :=
  (g.nodes.mapIdx Node.constraints).toList.flatten

/-- Whether the choice at node `i` can be made, by the choices at points. -/
def decidesAt (g : DependencyGraph P) (decides : P → Division → Bool) (i : Nat) (d : Division) :
    Bool :=
  g.nodes[i]?.any fun n => decides n.point d

/-- The divisions that are left of `seed` at every node. -/
def family (g : DependencyGraph P) (decides : P → Division → Bool) (seed : Division) : Family :=
  Family.settle (g.decidesAt decides) g.constraints (Array.replicate g.size seed)

def solve (g : DependencyGraph P) (decides : P → Division → Bool) (seed : Division) :
    Solution P :=
  ⟨(g.nodes.toList.map Node.point).zip (g.family decides seed).toList⟩

end DependencyGraph

end Staged
