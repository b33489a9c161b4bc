import Staged.Limits
import Staged.Step

/-!
Breadth-first exploration of the states of a flow graph. The states after the same number of steps
form a frontier; a frontier is expanded in order, and within two bounds, on the number of states
and on the number of steps.
-/

namespace Staged

/-- How a path ends. -/
inductive Outcome where
  | returned (point : PointId) (values : List Value)
  /-- The model has no step from here. -/
  | stopped (point : PointId)
  deriving Repr, Inhabited

structure Exploration where
  outcomes : Array Outcome := #[]
  visited : Nat := 0
  /-- Whether a bound left some states aside. -/
  truncated : Bool := false
  deriving Repr, Inhabited

/-- What becomes of a state: the end of a path, or the states after it. -/
inductive Expansion where
  | done (outcome : Outcome)
  | next (states : List State)
  deriving Repr, Inhabited

namespace Expansion

def outcome? : Expansion → Option Outcome
  | done outcome => some outcome
  | next _ => none

def states : Expansion → List State
  | done _ => []
  | next states => states

end Expansion

namespace FlowGraph

def expand (g : FlowGraph) (s : State) : Except EvalError Expansion :=
  match g.get? s.point with
  | some (.ret results) => do
    return .done (.returned s.point (← Expr.evalArgs s.scope.lookup results))
  | some (.unsupported _) | none => .ok (.done (.stopped s.point))
  | some point => do return .next (← point.step s.scope)

/-- Expands one frontier after the other. `length` more steps may be taken, and `states` more states
expanded. -/
def exploreFrom (g : FlowGraph) :
    (length states : Nat) → (frontier : List State) → Exploration → Except EvalError Exploration
  | _, _, [], result => .ok result
  | 0, _, _ :: _, result => .ok { result with truncated := true }
  | length + 1, states, s :: frontier, result =>
    let within := (s :: frontier).take states
    match within.mapM g.expand with
    | .error e => .error e
    | .ok expansions =>
      let outcomes := result.outcomes ++ expansions.filterMap Expansion.outcome?
      let visited := result.visited + within.length
      if states ≤ frontier.length then .ok { outcomes, visited, truncated := true }
      else
        g.exploreFrom length (states - within.length) (expansions.flatMap Expansion.states)
          { outcomes, visited }

def explore (g : FlowGraph) (limits : Limits) (start : State) : Except EvalError Exploration :=
  g.exploreFrom limits.maxPathLength limits.maxStates [start] {}

end FlowGraph

end Staged
