import Staged.Stmt

/-!
A structured semantics of statements, without points or jump targets. An execution is told by its
actions, in order, and by how it completes. Nothing is evaluated: which way a test goes is open,
even that of a loop without one, and so a statement has many executions. A loop that never ends has
none that completes; it is told by the executions that are cut off somewhere.
-/

namespace Staged

/-- What an execution does at one place. -/
inductive Action where
  | evaluate (e : Expr)
  /-- Binds the targets to the values, all at once. -/
  | assign (targets values : List Expr) (define : Bool)
  | test (test : Option Expr) (outcome : Bool)
  | ret (results : List Expr)
  | stop (s : Stmt)
  deriving Repr

inductive Completion where
  /-- The execution is cut off before it completes. -/
  | unfinished
  | normal
  | breakOut (target : Option String)
  | continueOn (target : Option String)
  | returned
  | stopped
  deriving DecidableEq, Repr

/-- The expression as an operand of an operator, kept apart by parentheses if it has one itself. -/
def Expr.operand : Expr → Expr
  | .binary op a b => .paren (.binary op a b)
  | e => e

namespace Stmt

/-- The statements outside the modelled part of the language. -/
inductive Stops : Stmt → Prop where
  | update {targets values : List Expr} {define : Bool} {op : BinaryOp}
      (h : ¬ (targets.length = 1 ∧ values.length = 1)) :
      Stops (.assign targets values define (some op))
  | goTo : Stops (.jump .goTo none)
  | fallThrough {label : Option String} : Stops (.jump .fallThrough label)
  | other {kind : String} : Stops (.other kind)

/-- Whether a loop with the label `label` takes a jump to `target`. -/
def Takes (label target : Option String) : Prop := target = none ∨ target = label

/-- The executions of a statement that stands directly behind `label`, if there is one. They do not
follow a jump to a label: no execution gets past it. -/
inductive Exec : (label : Option String) → Stmt → List Action → Completion → Prop where
  | cut {l s} : Exec l s [] .unfinished
  | empty {l} : Exec l .empty [] .normal
  | expr {l e} : Exec l (.expr e) [.evaluate e] .normal
  | assign {l targets values define} :
      Exec l (.assign targets values define none) [.assign targets values define] .normal
  | update {l target value define op} :
      Exec l (.assign [target] [value] define (some op))
        [.assign [target] [.binary op target value.operand] false] .normal
  | count {l target up} :
      Exec l (.count target up)
        [.assign [target] [.binary (if up then .add else .sub) target (.lit ⟨.int, "1"⟩)] false]
        .normal
  | ret {l results} : Exec l (.ret results) [.ret results] .returned
  | stop {l s} (h : s.Stops) : Exec l s [.stop s] .stopped
  | breakOut {l target} : Exec l (.jump .breakOut target) [] (.breakOut target)
  | continueOn {l target} : Exec l (.jump .continueOn target) [] (.continueOn target)
  | labeled {l label s tr c} (h : Exec (some label) s tr c) : Exec l (.labeled label s) tr c
  | nil {l} : Exec l (.block []) [] .normal
  | cons {l s rest tr tr' c} (hs : Exec none s tr .normal) (hrest : Exec none (.block rest) tr' c) :
      Exec l (.block (s :: rest)) (tr ++ tr') c
  | consAbrupt {l s rest tr c} (hs : Exec none s tr c) (hc : c ≠ .normal) :
      Exec l (.block (s :: rest)) tr c
  | ifInit {l init test body otherwise tr tr' c} (hinit : Exec none init tr .normal)
      (hif : Exec l (.ifElse none test body otherwise) tr' c) :
      Exec l (.ifElse (some init) test body otherwise) (tr ++ tr') c
  | ifInitAbrupt {l init test body otherwise tr c} (hinit : Exec none init tr c)
      (hc : c ≠ .normal) : Exec l (.ifElse (some init) test body otherwise) tr c
  | ifTrue {l test body otherwise tr c} (hbody : Exec none body tr c) :
      Exec l (.ifElse none test body otherwise) (.test (some test) true :: tr) c
  | ifFalse {l test body otherwise tr c} (helse : Exec none (otherwise.getD .empty) tr c) :
      Exec l (.ifElse none test body otherwise) (.test (some test) false :: tr) c
  | loopInit {l init test post body tr tr' c} (hinit : Exec none init tr .normal)
      (hloop : Exec l (.loop none test post body) tr' c) :
      Exec l (.loop (some init) test post body) (tr ++ tr') c
  | loopInitAbrupt {l init test post body tr c} (hinit : Exec none init tr c)
      (hc : c ≠ .normal) : Exec l (.loop (some init) test post body) tr c
  | loopFalse {l test post body} :
      Exec l (.loop none test post body) [.test test false] .normal
  | loopNext {l test post body tr tr' tr'' c} (hbody : Exec none body tr .normal)
      (hpost : Exec none (post.getD .empty) tr' .normal)
      (hloop : Exec l (.loop none test post body) tr'' c) :
      Exec l (.loop none test post body) (.test test true :: (tr ++ (tr' ++ tr''))) c
  | loopContinue {l test post body tr tr' c target}
      (hbody : Exec none body tr (.continueOn target)) (htakes : Takes l target)
      (hloop : Exec l (.loop none test post body) tr' c) :
      Exec l (.loop none test post body) (.test test true :: (tr ++ tr')) c
  | loopBreak {l test post body tr target} (hbody : Exec none body tr (.breakOut target))
      (htakes : Takes l target) :
      Exec l (.loop none test post body) (.test test true :: tr) .normal
  | loopAbrupt {l test post body tr c} (hbody : Exec none body tr c) (hc : c ≠ .normal)
      (htakes : ∀ target, Takes l target → c ≠ .breakOut target ∧ c ≠ .continueOn target) :
      Exec l (.loop none test post body) (.test test true :: tr) c
  | loopPostAbrupt {l test post body tr tr' c} (hbody : Exec none body tr .normal)
      (hpost : Exec none (post.getD .empty) tr' c) (hc : c ≠ .normal) :
      Exec l (.loop none test post body) (.test test true :: (tr ++ tr')) c

/-- What is seen of the executions of a whole body, where a jump that no loop takes stops. -/
inductive Runs (s : Stmt) : List Action → Completion → Prop where
  /-- An execution may be cut off wherever it has not come to its end by its last action. -/
  | unfinished {tr c} (h : Exec none s tr c) (hc : c ≠ .returned ∧ c ≠ .stopped) :
      Runs s tr .unfinished
  | normal {tr} (h : Exec none s tr .normal) : Runs s tr .normal
  | returned {tr} (h : Exec none s tr .returned) : Runs s tr .returned
  | stopped {tr} (h : Exec none s tr .stopped) : Runs s tr .stopped
  | strayBreak {tr target} (h : Exec none s tr (.breakOut target)) :
      Runs s (tr ++ [.stop (.jump .breakOut target)]) .stopped
  | strayContinue {tr target} (h : Exec none s tr (.continueOn target)) :
      Runs s (tr ++ [.stop (.jump .continueOn target)]) .stopped

/-- Actions that never come to an end are those of the body if all their finite parts are. -/
def RunsForever (s : Stmt) (t : Nat → Action) : Prop :=
  ∀ n, s.Runs ((List.range n).map t) .unfinished

end Stmt

end Staged
