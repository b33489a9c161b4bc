import Staged.Search

/-!
Directed graphs on numbered nodes, with parallel edges, and what can be reached in them.
-/

namespace Staged

structure Digraph where
  size : Nat
  /-- The edge added last comes first. -/
  edges : List (Nat × Nat)
  bounded : ∀ e ∈ edges, e.1 < size ∧ e.2 < size

namespace Digraph

def nodes (g : Digraph) : List Nat := List.range g.size

def successors (g : Digraph) (a : Nat) : List Nat := (g.edges.filter (·.1 == a)).map (·.2)

def predecessors (g : Digraph) (b : Nat) : List Nat := (g.edges.filter (·.2 == b)).map (·.1)

/-- Parallel edges count. -/
def outDegree (g : Digraph) (a : Nat) : Nat := (g.successors a).length

/-- The nodes at the end of a path of `next` steps, possibly none, from one of `starts`. -/
def closure (g : Digraph) (next : Nat → List Nat) (starts : List Nat) : List Nat :=
  let found := search next (g.nodes.filter (· ∉ starts)) starts.eraseDups
  g.nodes.filter (· ∈ found)

/-- The nodes from which `b` is reached, itself included. -/
def precursors (g : Digraph) (b : Nat) : List Nat := g.closure g.predecessors [b]

/-- The nodes that are reached from `a` along at least one edge. -/
def reachableAgain (g : Digraph) (a : Nat) : List Nat := g.closure g.successors (g.successors a)

/-- Whether a path of at least one edge leads from `a` to `b`. -/
def reaches (g : Digraph) (a b : Nat) : Bool := (g.reachableAgain a).contains b

@[simp] theorem mem_successors {g : Digraph} {a b : Nat} :
    b ∈ g.successors a ↔ (a, b) ∈ g.edges := by
  simp [successors]

@[simp] theorem mem_predecessors {g : Digraph} {a b : Nat} :
    a ∈ g.predecessors b ↔ (a, b) ∈ g.edges := by
  simp [predecessors]

end Digraph

end Staged
