import Staged.Stmt

/-!
Flow graphs. A graph is an array of control points that name their successors by position; a
position outside the array has no successors.
-/

namespace Staged

abbrev PointId := Nat

def PointId.label (p : PointId) : String := "p" ++ Nat.repr p

inductive Point where
  /-- Evaluates an expression for its effects. -/
  | evaluate (e : Expr) (next : PointId)
  /-- Binds the targets to the values, all at once. -/
  | assign (targets values : List Expr) (define : Bool) (next : PointId)
  /-- A loop without a test takes `ifTrue` every time. -/
  | branch (test : Option Expr) (ifTrue ifFalse : PointId)
  | ret (results : List Expr)
  /-- Control stops at a statement outside the model. -/
  | unsupported (s : Stmt)
  deriving Repr, Inhabited

namespace Point

/-- In order, the branch on true first. -/
def successors : Point → List PointId
  | evaluate _ next => [next]
  | assign _ _ _ next => [next]
  | branch _ ifTrue ifFalse => [ifTrue, ifFalse]
  | ret _ | unsupported _ => []

def isTerminal : Point → Bool
  | ret _ | unsupported _ => true
  | evaluate .. | assign .. | branch .. => false

/-- Sends every successor through `f`. -/
def redirect (f : PointId → PointId) : Point → Point
  | evaluate e next => evaluate e (f next)
  | assign targets values define next => assign targets values define (f next)
  | branch test ifTrue ifFalse => branch test (f ifTrue) (f ifFalse)
  | ret results => ret results
  | unsupported s => unsupported s

@[simp] theorem successors_redirect (f : PointId → PointId) (p : Point) :
    (p.redirect f).successors = p.successors.map f := by
  cases p <;> rfl

end Point

structure FlowGraph where
  points : Array Point := #[]
  deriving Repr, Inhabited

namespace FlowGraph

def size (g : FlowGraph) : Nat := g.points.size

def isEmpty (g : FlowGraph) : Bool := g.points.isEmpty

def get? (g : FlowGraph) (p : PointId) : Option Point := g.points[p]?

def push (g : FlowGraph) (p : Point) : FlowGraph := ⟨g.points.push p⟩

/-- The graph whose point 0 returns without results. -/
def exit : FlowGraph := ⟨#[.ret []]⟩

def successors (g : FlowGraph) (p : PointId) : List PointId :=
  match g.get? p with
  | some point => point.successors
  | none => []

@[simp] theorem size_push (g : FlowGraph) (p : Point) : (g.push p).size = g.size + 1 := by
  simp [push, size]

@[simp] theorem get?_push (g : FlowGraph) (p : Point) (i : PointId) :
    (g.push p).get? i = if i = g.size then some p else g.get? i :=
  Array.getElem?_push

@[simp] theorem get?_size (g : FlowGraph) : g.get? g.size = none := by
  simp [get?, size]

theorem get?_eq_none_iff {g : FlowGraph} {i : PointId} : g.get? i = none ↔ g.size ≤ i := by
  simp [get?, size]

end FlowGraph

end Staged
