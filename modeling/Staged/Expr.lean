/-!
Expression trees of a small imperative language, as its reader hands them over: literals keep their
text, and each identifier keeps the number of the place where it stands.
-/

namespace Staged

/-- An occurrence of a name. Names that come from no place in the text have `node` 0. -/
structure Ident where
  name : String
  node : Nat := 0
  deriving DecidableEq, Repr, Inhabited

namespace Ident

/-- The blank identifier takes a value and forgets it. -/
def isBlank (x : Ident) : Bool := x.name == "_"

/-- The two names that denote truth values wherever they stand. -/
def isBoolConstant (x : Ident) : Bool := x.name == "true" || x.name == "false"

end Ident

inductive LiteralKind where
  | int | float | imag | char | string
  deriving DecidableEq, Repr, Inhabited

/-- A literal with its text, quotes included. -/
structure Literal where
  kind : LiteralKind
  text : String
  deriving DecidableEq, Repr, Inhabited

inductive BinaryOp where
  | add | sub | mul | quo | rem
  | and | or | xor | shl | shr | andNot
  | logAnd | logOr
  | eql | neq | lss | leq | gtr | geq
  deriving DecidableEq, Repr, Inhabited

namespace BinaryOp

def spelling : BinaryOp → String
  | add => "+"
  | sub => "-"
  | mul => "*"
  | quo => "/"
  | rem => "%"
  | and => "&"
  | or => "|"
  | xor => "^"
  | shl => "<<"
  | shr => ">>"
  | andNot => "&^"
  | logAnd => "&&"
  | logOr => "||"
  | eql => "=="
  | neq => "!="
  | lss => "<"
  | leq => "<="
  | gtr => ">"
  | geq => ">="

end BinaryOp

inductive UnaryOp where
  | neg | plus | not | complement | deref | addressOf | receive
  deriving DecidableEq, Repr, Inhabited

namespace UnaryOp

/-- The operators whose result depends on the value of the operand alone. The others name storage
or wait for a message. -/
def isArithmetic : UnaryOp → Bool
  | neg | plus | not | complement => true
  | deref | addressOf | receive => false

end UnaryOp

inductive Expr where
  | lit (l : Literal)
  | ident (x : Ident)
  | binary (op : BinaryOp) (lhs rhs : Expr)
  | unary (op : UnaryOp) (operand : Expr)
  | call (callee : Expr) (args : List Expr)
  | paren (inner : Expr)
  | selector (receiver : Expr) (member : Ident)
  | index (base position : Expr)
  deriving Repr, Inhabited

namespace Expr

/-- The expression that reads the variable `x`. -/
def name (x : String) : Expr := .ident { name := x }

mutual

/-- The identifiers that may denote variables, in reading order. Member names and the truth values
are no variables. -/
def idents : Expr → List Ident
  | .lit _ => []
  | .ident x => if x.isBoolConstant then [] else [x]
  | .binary _ a b => a.idents ++ b.idents
  | .unary _ a => a.idents
  | .call f args => f.idents ++ identsAll args
  | .paren a => a.idents
  | .selector a _ => a.idents
  | .index a i => a.idents ++ i.idents

def identsAll : List Expr → List Ident
  | [] => []
  | e :: es => e.idents ++ identsAll es

end

theorem identsAll_eq_flatMap (es : List Expr) : identsAll es = es.flatMap idents := by
  induction es with
  | nil => simp [identsAll]
  | cons e es ih => simp [identsAll, ih]

end Expr

end Staged
