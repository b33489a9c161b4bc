import Staged.Graph.Draft

/-!
From statements to control points. A statement is compiled against the point that runs after it,
and compiling it returns the point that runs it, so a block is built from its end. The test of a
loop is made before the body and aimed at the body afterwards.
-/

namespace Staged

/-- An enclosing loop: where `continue` leads, and where `break` leads. -/
structure Loop where
  label : Option String
  next : PointId
  out : PointId
  deriving DecidableEq, Repr, Inhabited

namespace Loop

/-- The loop that a jump with this label leaves or continues, among the enclosing ones, innermost
first. -/
def find? (loops : List Loop) : Option String → Option Loop
  | none => loops.head?
  | some label => loops.find? (·.label == some label)

end Loop

namespace Stmt

/-- `target op= value` is `target = target op value`, where an operator in `value` is kept apart by
parentheses. -/
def compound (target : Expr) (op : BinaryOp) (value : Expr) (next : PointId) : Point :=
  let operand := match value with
    | .binary .. => .paren value
    | _ => value
  .assign [target] [.binary op target operand] false next

/-- Where a jump leads. -/
def jumpTo (loops : List Loop) (kind : JumpKind) (label : Option String) (d : Draft) :
    PointId × Draft :=
  match kind, label with
  | .goTo, some label => d.slot label
  | .breakOut, label =>
    match Loop.find? loops label with
    | some l => (l.out, d)
    | none => d.add (.unsupported (.jump .breakOut label))
  | .continueOn, label =>
    match Loop.find? loops label with
    | some l => (l.next, d)
    | none => d.add (.unsupported (.jump .continueOn label))
  | kind, label => d.add (.unsupported (.jump kind label))

mutual

/-- The entry of a statement after which control goes to `next`. Only a label that stands directly
before a loop is the label of that loop. -/
def compile (loops : List Loop) (label : Option String) :
    Stmt → (next : PointId) → Draft → PointId × Draft
  | .empty, next, d => (next, d)
  | .expr e, next, d => d.add (.evaluate e next)
  | .assign targets values define none, next, d => d.add (.assign targets values define next)
  | .assign [target] [value] _ (some op), next, d => d.add (compound target op value next)
  | .assign targets values define (some op), _, d =>
    d.add (.unsupported (.assign targets values define (some op)))
  | .count target up, next, d =>
    d.add (compound target (if up then .add else .sub) (.lit ⟨.int, "1"⟩) next)
  | .block body, next, d => compileAll loops body next d
  | .ifElse init test body otherwise, next, d =>
    let (ifTrue, d) := compile loops none body next d
    let (ifFalse, d) := compileOption loops otherwise next d
    let (branch, d) := d.add (.branch (some test) ifTrue ifFalse)
    compileOption loops init branch d
  | .loop init test post body, next, d =>
    let (head, d) := d.add (.branch test next next)
    let (again, d) := compileOption loops post head d
    let (first, d) := compile (⟨label, head, next⟩ :: loops) none body again d
    compileOption loops init head (d.aimTrue head first)
  | .jump kind label, _, d => jumpTo loops kind label d
  | .ret results, _, d => d.add (.ret results)
  | .labeled label body, next, d =>
    let (entry, d) := compile loops (some label) body next d
    (entry, d.enter label entry)
  | .other kind, _, d => d.add (.unsupported (.other kind))

/-- An absent statement does nothing. -/
def compileOption (loops : List Loop) :
    Option Stmt → (next : PointId) → Draft → PointId × Draft
  | none, next, d => (next, d)
  | some s, next, d => compile loops none s next d

def compileAll (loops : List Loop) :
    List Stmt → (next : PointId) → Draft → PointId × Draft
  | [], next, d => (next, d)
  | s :: rest, next, d =>
    let (next, d) := compileAll loops rest next d
    compile loops none s next d

end

/-- Compiles a statement outside of all loops and settles the jumps. The draft keeps its labels
for statements that are compiled later. -/
def analyze (s : Stmt) (next : PointId) (d : Draft) : PointId × Draft :=
  let (entry, d) := compile [] none s next d
  (d.resolve entry, d.settle)

/-- The graph of a body on its own, which returns nothing at its end, and the entry of the body. -/
def graph (body : Stmt) : PointId × FlowGraph :=
  let (entry, d) := analyze body 0 { graph := .exit }
  (entry, d.graph)

end Stmt

end Staged
