import Staged.Value.Fold
import Staged.Scope

/-!
Evaluation of expressions as far as an environment reaches. What is known is folded, and the rest
comes back as an expression. An expression yields a list of values, because the only argument of a
call hands over all that it yields.
-/

namespace Staged

/-- The first of the values that an expression yields. -/
def single : List Value → Except EvalError Value
  | [] => .error .noValue
  | v :: _ => .ok v

/-- The names of the truth values come before the environment. -/
def Ident.value (ρ : Env) (x : Ident) : Value :=
  if x.name = "true" then .bool true
  else if x.name = "false" then .bool false
  else ρ x.name

namespace Expr

mutual

/-- The values of an expression. Indexing, and the operators that name storage or wait for a
message, are never evaluated: they stay as they are written. -/
def eval (ρ : Env) : Expr → Except EvalError (List Value)
  | .lit l => .ok [l.value]
  | .ident x => .ok [x.value ρ]
  | .binary op a b => do
    let v ← single (← a.eval ρ)
    let w ← single (← b.eval ρ)
    return [.binary op v w]
  | .unary op a =>
    if op.isArithmetic then do
      let v ← single (← a.eval ρ)
      return [.unary op v]
    else .ok [.unknown (.unary op a)]
  | .call f args => do
    let v ← single (← f.eval ρ)
    v.call (← evalArgs ρ args)
  | .paren a => do
    let v ← single (← a.eval ρ)
    return [v.paren]
  | .selector a x => do
    let v ← single (← a.eval ρ)
    return [← v.member x.name]
  | .index a i => .ok [.unknown (.index a i)]

/-- The values of arguments. A lone argument hands over all of its values, any other the first. -/
def evalArgs (ρ : Env) : List Expr → Except EvalError (List Value)
  | [] => .ok []
  | [e] => e.eval ρ
  | e :: e' :: es => do
    let v ← single (← e.eval ρ)
    return v :: (← evalEach ρ (e' :: es))

/-- The first value of each expression. -/
def evalEach (ρ : Env) : List Expr → Except EvalError (List Value)
  | [] => .ok []
  | e :: es => do
    let v ← single (← e.eval ρ)
    return v :: (← evalEach ρ es)

end

/-- The first value of an expression. -/
def value (ρ : Env) (e : Expr) : Except EvalError Value := do single (← e.eval ρ)

end Expr

end Staged
