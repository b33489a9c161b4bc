import Staged.Stmt
import Mathlib.Tactic.Lemma

/-!
Induction on statement trees, the labels that a statement goes to, and those that it defines. An
absent statement counts as the empty one, and the rest of a block as a block.
-/

namespace Staged.Stmt

@[elab_as_elim, induction_eliminator]
theorem induction_on {motive : Stmt → Prop} (empty : motive .empty)
    (expr : ∀ e, motive (.expr e))
    (assign : ∀ targets values define op, motive (.assign targets values define op))
    (count : ∀ target up, motive (.count target up)) (nil : motive (.block []))
    (cons : ∀ s rest, motive s → motive (.block rest) → motive (.block (s :: rest)))
    (ifElse : ∀ init test body otherwise, motive (init.getD .empty) → motive body →
      motive (otherwise.getD .empty) → motive (.ifElse init test body otherwise))
    (loop : ∀ init test post body, motive (init.getD .empty) → motive (post.getD .empty) →
      motive body → motive (.loop init test post body))
    (jump : ∀ kind label, motive (.jump kind label)) (ret : ∀ results, motive (.ret results))
    (labeled : ∀ label body, motive body → motive (.labeled label body))
    (other : ∀ kind, motive (.other kind)) (s : Stmt) : motive s :=
  @Stmt.rec motive (fun body => motive (.block body)) (fun s? => motive (s?.getD .empty)) empty expr
    assign count (fun _ h => h) ifElse loop jump ret labeled other nil cons empty (fun _ h => h) s

mutual

/-- The labels that a statement goes to. -/
def gotos : Stmt → List String
  | .jump .goTo label => label.toList
  | .block body => gotosAll body
  | .ifElse init _ body otherwise => gotosOption init ++ gotos body ++ gotosOption otherwise
  | .loop init _ post body => gotosOption init ++ gotosOption post ++ gotos body
  | .labeled _ body => gotos body
  | .empty | .expr _ | .assign .. | .count .. | .jump .. | .ret _ | .other _ => []

def gotosOption : Option Stmt → List String
  | none => []
  | some s => gotos s

def gotosAll : List Stmt → List String
  | [] => []
  | s :: rest => gotos s ++ gotosAll rest

end

lemma gotosOption_eq (s? : Option Stmt) : gotosOption s? = gotos (s?.getD .empty) := by
  cases s? <;> rfl

lemma gotos_block_cons (s : Stmt) (rest : List Stmt) :
    gotos (.block (s :: rest)) = gotos s ++ gotos (.block rest) := rfl

lemma gotos_ifElse (init : Option Stmt) (test : Expr) (body : Stmt) (otherwise : Option Stmt) :
    gotos (.ifElse init test body otherwise) =
      gotos (init.getD .empty) ++ gotos body ++ gotos (otherwise.getD .empty) := by
  rw [← gotosOption_eq, ← gotosOption_eq]
  rfl

lemma gotos_loop (init : Option Stmt) (test : Option Expr) (post : Option Stmt) (body : Stmt) :
    gotos (.loop init test post body) =
      gotos (init.getD .empty) ++ gotos (post.getD .empty) ++ gotos body := by
  rw [← gotosOption_eq, ← gotosOption_eq]
  rfl

mutual

/-- The labels that a statement defines, each as often as it is defined. -/
def labels : Stmt → List String
  | .labeled label body => label :: labels body
  | .block body => labelsAll body
  | .ifElse init _ body otherwise => labelsOption init ++ labels body ++ labelsOption otherwise
  | .loop init _ post body => labelsOption init ++ labelsOption post ++ labels body
  | .empty | .expr _ | .assign .. | .count .. | .jump .. | .ret _ | .other _ => []

def labelsOption : Option Stmt → List String
  | none => []
  | some s => labels s

def labelsAll : List Stmt → List String
  | [] => []
  | s :: rest => labels s ++ labelsAll rest

end

lemma labelsOption_eq (s? : Option Stmt) : labelsOption s? = labels (s?.getD .empty) := by
  cases s? <;> rfl

end Staged.Stmt
