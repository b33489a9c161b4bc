import Staged.Eval
import Staged.Graph.Basic

/-!
Running a flow graph on values known in part. A state is a point with the scope it runs in; a step
leads to one state, or to two where a test stays undecided.
-/

namespace Staged

structure State where
  point : PointId
  scope : Scope
  deriving Repr, Inhabited

/-- Binds each identifier among the targets to the value at its position. A target without a value
becomes free, and the blank identifier takes its value away. -/
def Scope.assign (s : Scope) : (targets : List Expr) → (values : List Value) → Scope
  | [], _ => s
  | .ident x :: targets, values =>
    if x.isBlank then s.assign targets values.tail
    else (s.bind x.name (values.head?.getD (.free x.name))).assign targets values.tail
  | _ :: targets, values => s.assign targets values.tail

/-- What holds once `test` is true. An equation binds the identifier on its left, and of two
conditions the second one binds first. -/
def Expr.refine : (test : Expr) → Scope → Except EvalError Scope
  | .binary .eql (.ident x) e, s =>
    if x.isBlank || x.isBoolConstant then .ok s
    else do return s.bind x.name (← e.value s.lookup)
  | .binary .logAnd a b, s => do a.refine (← b.refine s)
  | _, s => .ok s

namespace Point

/-- The states after a point. -/
def step (s : Scope) : Point → Except EvalError (List State)
  | evaluate _ next => .ok [⟨next, s⟩]
  | assign targets values _ next => do
    return [⟨next, s.assign targets (← Expr.evalArgs s.lookup values)⟩]
  | branch none ifTrue _ => .ok [⟨ifTrue, s⟩]
  | branch (some test) ifTrue ifFalse => do
    match ← test.value s.lookup with
    | .bool true => return [⟨ifTrue, ← test.refine s⟩]
    | .bool false => return [⟨ifFalse, s⟩]
    | _ => return [⟨ifTrue, ← test.refine s⟩, ⟨ifFalse, s⟩]
  | ret _ | unsupported _ => .ok []

/-- The values that a return yields. -/
def returned (s : Scope) : Point → Except EvalError (Option (List Value))
  | ret results => do return some (← Expr.evalArgs s.lookup results)
  | evaluate .. | assign .. | branch .. | unsupported _ => .ok none

end Point

namespace FlowGraph

/-- There is no step from a position outside the graph. -/
def step (g : FlowGraph) (s : State) : Except EvalError (List State) :=
  match g.get? s.point with
  | some point => point.step s.scope
  | none => .ok []

def returned (g : FlowGraph) (s : State) : Except EvalError (Option (List Value)) :=
  match g.get? s.point with
  | some point => point.returned s.scope
  | none => .ok none

/-- The states along the path that takes, at each step, the successor with the chosen number. The
path ends where there is no such successor. -/
def walk (g : FlowGraph) (s : State) : (choices : List Nat) → List State
  | [] => [s]
  | choice :: choices =>
    s :: match g.step s with
      | .ok next =>
        match next[choice]? with
        | some t => g.walk t choices
        | none => []
      | .error _ => []

end FlowGraph

end Staged
