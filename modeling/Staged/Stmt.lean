import Staged.Expr

/-!
Statement trees.
-/

namespace Staged

inductive JumpKind where
  | goTo | breakOut | continueOn | fallThrough
  deriving DecidableEq, Repr, Inhabited

def JumpKind.keyword : JumpKind → String
  | goTo => "goto"
  | breakOut => "break"
  | continueOn => "continue"
  | fallThrough => "fallthrough"

inductive Stmt where
  | empty
  | expr (e : Expr)
  /-- `op` is set for an assignment that updates its target. -/
  | assign (targets values : List Expr) (define : Bool) (op : Option BinaryOp)
  /-- Counts `target` up or down by one. -/
  | count (target : Expr) (up : Bool)
  | block (body : List Stmt)
  | ifElse (init : Option Stmt) (test : Expr) (body : Stmt) (otherwise : Option Stmt)
  | loop (init : Option Stmt) (test : Option Expr) (post : Option Stmt) (body : Stmt)
  | jump (kind : JumpKind) (label : Option String)
  | ret (results : List Expr)
  | labeled (label : String) (body : Stmt)
  /-- A statement outside the modelled part of the language. -/
  | other (kind : String)
  deriving Repr, Inhabited

namespace Stmt

/-- The name of the kind of a statement. -/
def kindName : Stmt → String
  | empty => "empty"
  | expr _ => "expr"
  | assign .. => "assign"
  | count .. => "incdec"
  | block _ => "block"
  | ifElse .. => "if"
  | loop .. => "for"
  | jump kind _ => kind.keyword
  | ret _ => "return"
  | labeled .. => "labeled"
  | other kind => kind

end Stmt

end Staged
