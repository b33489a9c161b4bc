import Staged.Digraph
import Staged.Flow

/-!
The dependencies among the points of a flow. The points reachable from the entry become the nodes
of a graph, numbered as they are found. A node depends on those before it that define what it uses.
Where such a definition comes round again, the choices that may end the round matter too.
-/

namespace Staged

inductive LoopDep where
  /-- The round goes on as long as the choice at the node `guard` lets it. -/
  | branch (guard : Nat)
  /-- The round has no end. -/
  | unbounded
  deriving DecidableEq, Repr, Inhabited

structure Node (P : Type) where
  point : P
  definitions : List Var
  uses : List Var
  dataDeps : List Nat
  loopDeps : List LoopDep
  deriving Repr

structure DependencyGraph (P : Type) where
  /-- The entry is node 0. -/
  nodes : Array (Node P)
  shape : Digraph

namespace Flow

variable {P : Type} [DecidableEq P]

/-- The points reachable from the entry, in the order in which their successors are looked up. -/
def order (f : Flow P) : List P :=
  search f.successors (f.region.filter (· ≠ f.entry)) [f.entry]

/-- The points reachable from the entry, in the order in which they are found. -/
def points (f : Flow P) : List P := (f.entry :: f.order.flatMap f.successors).eraseDups

/-- The edges between points, by their numbers, the first one found in front. -/
def edgesAmong (next : P → List P) (points order : List P) : List (Nat × Nat) :=
  order.flatMap fun p => (next p).map fun q => (points.idxOf p, points.idxOf q)

theorem mem_points {f : Flow P} {p : P} :
    p ∈ f.points ↔ p = f.entry ∨ ∃ q ∈ f.order, p ∈ f.successors q := by
  simp [points]

theorem mem_points_of_mem_order {f : Flow P} {p : P} (h : p ∈ f.order) : p ∈ f.points := by
  refine mem_points.2 ((mem_search h).imp (fun h => ?_) id)
  simpa using h

def shape (f : Flow P) : Digraph where
  size := f.points.length
  edges := (edgesAmong f.successors f.points f.order).reverse
  bounded e he := by
    simp only [edgesAmong, List.mem_reverse, List.mem_flatMap, List.mem_map] at he
    obtain ⟨p, hp, q, hq, rfl⟩ := he
    exact ⟨List.idxOf_lt_length_of_mem (mem_points_of_mem_order hp),
      List.idxOf_lt_length_of_mem (mem_points.2 (.inr ⟨p, hp, hq⟩))⟩

/-- Whether `p` uses a variable that `q` defines. -/
def dependsOn (f : Flow P) (p q : P) : Bool := (f.uses p).any (f.definitions q).contains

/-- The point `p` as node `i`. -/
def node (f : Flow P) (shape : Digraph) (points : Array P) (i : Nat) (p : P) : Node P :=
  let before := shape.precursors i
  let ahead := shape.reachableAgain i
  let sources := before.filter fun q => points[q]?.any (f.dependsOn p)
  let guards := before.filter fun r => 1 < shape.outDegree r && ahead.contains r
  { point := p
    definitions := f.definitions p
    uses := f.uses p
    dataDeps := sources.filter (· != i)
    loopDeps :=
      if sources.any ahead.contains then
        if guards.isEmpty then [.unbounded] else guards.map .branch
      else [] }

def dependencies (f : Flow P) : DependencyGraph P :=
  let points := f.points.toArray
  let shape := f.shape
  { nodes := points.mapIdx (f.node shape points), shape }

end Flow

namespace DependencyGraph

variable {P : Type} [DecidableEq P]

def size (g : DependencyGraph P) : Nat := g.nodes.size

/-- The number of the node that holds the point `p`. -/
def indexOf? (g : DependencyGraph P) (p : P) : Option Nat := g.nodes.findIdx? (·.point = p)

end DependencyGraph

end Staged
