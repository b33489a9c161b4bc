import Staged.Text.Quoted
import Staged.Expr

/-!
Values of a program whose inputs are known in part: a known integer, text or truth value, or the
expression that computes the value once the rest is known.
-/

namespace Staged

inductive Value where
  | unknown (e : Expr)
  | int (n : Int64)
  | string (s : String)
  | bool (b : Bool)
  deriving Repr, Inhabited

namespace Literal

def ofInt (n : Int64) : Literal := ⟨.int, Numeral.encode n⟩

def ofString (s : String) : Literal := ⟨.string, Quoted.encode s⟩

/-- The value of a literal. Kinds without values of their own stay residual, and so does a quoted
literal whose bytes are no text. -/
def value (l : Literal) : Value :=
  match l.kind with
  | .int => .int (Numeral.decode l.text)
  | .string =>
    match Quoted.decode l.text with
    | some s => .string s
    | none => .unknown (.lit l)
  | .float | .imag | .char => .unknown (.lit l)

end Literal

/-- What a known value cannot be used for. -/
inductive Misuse where
  | memberAccess
  | call
  deriving DecidableEq, Repr, Inhabited

def Misuse.text : Misuse → String
  | memberAccess => "member access"
  | call => "call"

inductive EvalError where
  /-- A known value is used in a way that only an object or a function allows. -/
  | invalidOperation (operation : Misuse) (value : Value)
  /-- An expression yields no value where one is needed. -/
  | noValue
  deriving Repr, Inhabited

namespace Value

/-- The expression that computes a value. -/
def expr : Value → Expr
  | unknown e => e
  | int n => .lit (.ofInt n)
  | string s => .lit (.ofString s)
  | bool true => .name "true"
  | bool false => .name "false"

def isKnown : Value → Bool
  | unknown _ => false
  | int _ | string _ | bool _ => true

/-- Both known and equal. A residual is the same as nothing, not even itself. -/
def same : Value → Value → Bool
  | int a, int b => decide (a = b)
  | string a, string b => decide (a = b)
  | bool a, bool b => decide (a = b)
  | _, _ => false

def display : Value → String
  | unknown _ => "<unknown>"
  | int n => Numeral.encode n
  | string s => Quoted.encode s
  | bool true => "true"
  | bool false => "false"

/-- Selects a member. -/
def member (v : Value) (x : String) : Except EvalError Value :=
  match v with
  | unknown e => .ok (.unknown (.selector e { name := x }))
  | known => .error (.invalidOperation .memberAccess known)

/-- Calls a value, which yields one value. -/
def call (v : Value) (args : List Value) : Except EvalError (List Value) :=
  match v with
  | unknown e => .ok [.unknown (.call e (args.map expr))]
  | known => .error (.invalidOperation .call known)

end Value

namespace EvalError

def message : EvalError → String
  | invalidOperation operation value =>
    "Invalid operation: " ++ operation.text ++ " on known value " ++ value.display
  | noValue => "Empty result: expression produced no value"

end EvalError

end Staged
