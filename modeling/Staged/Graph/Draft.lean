import Staged.Graph.Basic

/-!
Flow graphs under construction. A jump may come before the statement it leads to, so it first aims
at a placeholder that stands for its label; `settle` sends all that aims at a placeholder on to the
entry of the labelled statement.
-/

namespace Staged

structure Draft where
  graph : FlowGraph
  /-- The placeholder of each label jumped to. -/
  slots : List (String × PointId) := []
  /-- The entry of each labelled statement. A label used again has its last entry in front. -/
  entries : List (String × PointId) := []
  deriving Repr, Inhabited

namespace Draft

def add (d : Draft) (p : Point) : PointId × Draft :=
  (d.graph.size, { d with graph := d.graph.push p })

/-- The placeholder of a label, made when the label is first jumped to. -/
def slot (d : Draft) (label : String) : PointId × Draft :=
  match d.slots.lookup label with
  | some p => (p, d)
  | none =>
    let (p, d) := d.add (.unsupported (.jump .goTo (some label)))
    (p, { d with slots := (label, p) :: d.slots })

def enter (d : Draft) (label : String) (entry : PointId) : Draft :=
  { d with entries := (label, entry) :: d.entries }

/-- Aims the true side of the branch at `p` at `target`. -/
def aimTrue (d : Draft) (p target : PointId) : Draft :=
  { d with graph := ⟨d.graph.points.modify p fun
      | .branch test _ ifFalse => .branch test target ifFalse
      | point => point⟩ }

/-- Where each placeholder with a labelled statement leads. -/
def redirects (d : Draft) : List (PointId × PointId) :=
  d.slots.filterMap fun (label, p) => (d.entries.lookup label).map (p, ·)

/-- Takes at most `steps` redirects from `p` on, and stops at a point that leads nowhere else. -/
def follow (redirects : List (PointId × PointId)) : (steps : Nat) → (p : PointId) → PointId
  | 0, p => p
  | steps + 1, p =>
    match redirects.lookup p with
    | some q => if q = p then p else follow redirects steps q
    | none => p

/-- Labels may stand before jumps to other labels; a chain without a cycle uses each redirect at
most once. -/
def resolve (d : Draft) (p : PointId) : PointId :=
  follow d.redirects (d.redirects.length + 1) p

def settle (d : Draft) : Draft :=
  { d with graph := ⟨d.graph.points.map (·.redirect d.resolve)⟩ }

@[simp] theorem size_graph_add (d : Draft) (p : Point) :
    (d.add p).2.graph.size = d.graph.size + 1 := by simp [add]

@[simp] theorem size_graph_aimTrue (d : Draft) (p q : PointId) :
    (d.aimTrue p q).graph.size = d.graph.size := by simp [aimTrue, FlowGraph.size]

@[simp] theorem size_graph_settle (d : Draft) : d.settle.graph.size = d.graph.size := by
  simp [settle, FlowGraph.size]

theorem get?_settle (d : Draft) (p : PointId) :
    d.settle.graph.get? p = (d.graph.get? p).map (·.redirect d.resolve) := by
  simp [settle, FlowGraph.get?]

end Draft

end Staged
