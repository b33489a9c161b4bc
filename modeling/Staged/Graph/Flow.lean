import Staged.Flow
import Staged.Graph.Basic

/-!
Flow graphs as a binding-time analysis sees them. A resolver turns identifiers into variables, and
identifiers that it does not know count for nothing.
-/

namespace Staged

namespace Point

/-- The expressions that a point reads. The parts of a target that is no identifier are read before
it takes its value. -/
def reads : Point → List Expr
  | evaluate e _ => [e]
  | assign targets values _ _ =>
    values ++ targets.filter fun
      | .ident _ => false
      | _ => true
  | branch test _ _ => test.toList
  | ret results => results
  | unsupported _ => []

/-- The identifiers that take a value. -/
def writes : Point → List Ident
  | assign targets _ _ _ => targets.filterMap fun
      | .ident x => some x
      | _ => none
  | evaluate .. | branch .. | ret _ | unsupported _ => []

def uses (resolve : Resolver) (p : Point) : List Var := Expr.vars resolve p.reads

def definitions (resolve : Resolver) (p : Point) : List Var :=
  (p.writes.filterMap resolve).eraseDups

/-- A test can be decided once its variables are known. A loop without a test gives no choice that
could be made, and points without a choice need none. -/
def decides (resolve : Resolver) (d : Division) : Point → Bool
  | branch (some test) _ _ => (Expr.vars resolve [test]).all d.isKnown
  | branch none _ _ => false
  | evaluate .. | assign .. | ret _ | unsupported _ => true

end Point

namespace FlowGraph

/-- Positions outside the graph are points that do nothing. -/
def flow (g : FlowGraph) (resolve : Resolver) (entry : PointId) : Flow PointId where
  entry := entry
  region := entry :: g.points.toList.flatMap Point.successors
  successors := g.successors
  definitions p := ((g.get? p).map (Point.definitions resolve)).getD []
  uses p := ((g.get? p).map (Point.uses resolve)).getD []
  decides p d := ((g.get? p).map (Point.decides resolve d)).getD true
  entry_mem := List.mem_cons_self
  closed p _ q hq := by
    refine List.mem_cons_of_mem _ (List.mem_flatMap.2 ?_)
    unfold successors at hq
    split at hq
    next point h => exact ⟨point, Array.mem_toList_iff.2 (Array.mem_of_getElem? h), hq⟩
    next => simp at hq

end FlowGraph

end Staged
