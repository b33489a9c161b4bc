import Staged.Value

/-!
Operators on values. An operator on known operands folds to a known value where the program would
compute one; every other combination is rebuilt as an expression.
-/

namespace Staged

namespace BinaryOp

/-- Integers are 64-bit words. Division by zero and shifts by a negative count have no value, and
a shift by 64 or more leaves nothing but the sign. -/
def onInts? (op : BinaryOp) (a b : Int64) : Option Value :=
  match op with
  | add => some (.int (a + b))
  | sub => some (.int (a - b))
  | mul => some (.int (a * b))
  | quo => if b = 0 then none else some (.int (a / b))
  | rem => if b = 0 then none else some (.int (a % b))
  | and => some (.int (a &&& b))
  | or => some (.int (a ||| b))
  | xor => some (.int (a ^^^ b))
  | andNot => some (.int (a &&& ~~~b))
  | shl => if b < 0 then none else some (.int (if b < 64 then a <<< b else 0))
  | shr => if b < 0 then none else some (.int (a >>> (if b < 64 then b else 63)))
  | eql => some (.bool (decide (a = b)))
  | neq => some (.bool (decide (a ≠ b)))
  | lss => some (.bool (decide (a < b)))
  | leq => some (.bool (decide (a ≤ b)))
  | gtr => some (.bool (decide (b < a)))
  | geq => some (.bool (decide (b ≤ a)))
  | logAnd | logOr => none

/-- Whether the bytes of `a` come before those of `b` in a dictionary. -/
def bytesBefore (a b : String) : Bool :=
  List.lex a.toByteArray.data.toList b.toByteArray.data.toList (fun x y => decide (x < y))

def onStrings? (op : BinaryOp) (a b : String) : Option Value :=
  match op with
  | add => some (.string (a ++ b))
  | eql => some (.bool (decide (a = b)))
  | neq => some (.bool (decide (a ≠ b)))
  | lss => some (.bool (bytesBefore a b))
  | leq => some (.bool (!bytesBefore b a))
  | gtr => some (.bool (bytesBefore b a))
  | geq => some (.bool (!bytesBefore a b))
  | _ => none

def onBools? (op : BinaryOp) (a b : Bool) : Option Value :=
  match op with
  | logAnd => some (.bool (a && b))
  | logOr => some (.bool (a || b))
  | eql => some (.bool (decide (a = b)))
  | neq => some (.bool (decide (a ≠ b)))
  | _ => none

/-- Operands of different kinds have no value together. -/
def onValues? (op : BinaryOp) : Value → Value → Option Value
  | .int a, .int b => op.onInts? a b
  | .string a, .string b => op.onStrings? a b
  | .bool a, .bool b => op.onBools? a b
  | _, _ => none

end BinaryOp

namespace UnaryOp

def onValue? : UnaryOp → Value → Option Value
  | neg, .int n => some (.int (-n))
  | plus, .int n => some (.int n)
  | complement, .int n => some (.int (~~~n))
  | not, .bool b => some (.bool !b)
  | _, _ => none

end UnaryOp

namespace Value

def binary (op : BinaryOp) (a b : Value) : Value :=
  (op.onValues? a b).getD (.unknown (.binary op a.expr b.expr))

def unary (op : UnaryOp) (a : Value) : Value :=
  (op.onValue? a).getD (.unknown (.unary op a.expr))

/-- Parentheses vanish around a known value. -/
def paren : Value → Value
  | unknown e => .unknown (.paren e)
  | known => known

end Value

end Staged
