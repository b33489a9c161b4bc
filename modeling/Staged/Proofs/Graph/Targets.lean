import Staged.BindingTime
import Staged.Proofs.Graph.Embedding

/-!
What a body assigns to. The points of the graph of a body assign to nothing that the body itself
does not assign to.
-/

namespace Staged

namespace Stmt

mutual

/-- The expressions that a statement assigns to. -/
def targets : Stmt → List Expr
  | .assign targets _ _ _ => targets
  | .count target _ => [target]
  | .block body => targetsAll body
  | .ifElse init _ body otherwise => targetsOption init ++ targets body ++ targetsOption otherwise
  | .loop init _ post body => targetsOption init ++ targetsOption post ++ targets body
  | .labeled _ body => targets body
  | .empty | .expr _ | .jump .. | .ret _ | .other _ => []

def targetsOption : Option Stmt → List Expr
  | none => []
  | some s => targets s

def targetsAll : List Stmt → List Expr
  | [] => []
  | s :: rest => targets s ++ targetsAll rest

end

lemma targetsOption_eq (s? : Option Stmt) : targetsOption s? = targets (s?.getD .empty) := by
  cases s? <;> simp [targetsOption, targets]

end Stmt

namespace Draft

/-- All that the points of a draft assign to is among `ts`. -/
def AssignsWithin (ts : List Expr) (d : Draft) : Prop :=
  ∀ p targets values define next,
    d.graph.get? p = some (.assign targets values define next) → targets ⊆ ts

namespace AssignsWithin

variable {ts : List Expr} {d : Draft}

lemma add (h : d.AssignsWithin ts) {point : Point}
    (hpoint : ∀ targets values define next, point = .assign targets values define next →
      targets ⊆ ts) : (d.add point).2.AssignsWithin ts := by
  intro p targets values define next hp
  rw [Draft.add, FlowGraph.get?_push] at hp
  split at hp
  · exact hpoint _ _ _ _ (Option.some.inj hp)
  · exact h _ _ _ _ _ hp

lemma slot (h : d.AssignsWithin ts) (label : String) : (d.slot label).2.AssignsWithin ts := by
  unfold Draft.slot
  split
  · exact h
  · exact h.add (by simp)

lemma aimTrue (h : d.AssignsWithin ts) (p target : PointId) :
    (d.aimTrue p target).AssignsWithin ts := by
  intro q targets values define next hq
  by_cases hpq : p = q
  · subst hpq
    rw [Draft.aimTrue, FlowGraph.get?, Array.getElem?_modify, if_pos rfl,
      Option.map_eq_some_iff] at hq
    obtain ⟨point, hpoint, heq⟩ := hq
    cases point <;> simp only [reduceCtorEq] at heq
    rw [heq] at hpoint
    exact h _ _ _ _ _ hpoint
  · rw [get?_aimTrue_of_ne d target hpq] at hq
    exact h _ _ _ _ _ hq

lemma settle (h : d.AssignsWithin ts) : d.settle.AssignsWithin ts := by
  intro p targets values define next hp
  rw [get?_settle, Option.map_eq_some_iff] at hp
  obtain ⟨point, hpoint, heq⟩ := hp
  cases point <;> simp only [Point.redirect, reduceCtorEq, Point.assign.injEq] at heq
  exact heq.1 ▸ h _ _ _ _ _ hpoint

end AssignsWithin

end Draft

namespace Stmt

variable {ts : List Expr} {loops : List Loop} {l : Option String} {next : PointId} {d : Draft}

lemma assignsWithin_jumpTo (h : d.AssignsWithin ts) (kind : JumpKind) (label : Option String) :
    (jumpTo loops kind label d).2.AssignsWithin ts := by
  unfold jumpTo
  split
  · exact h.slot _
  · split
    · exact h
    · exact h.add (by simp)
  · split
    · exact h
    · exact h.add (by simp)
  · exact h.add (by simp)

lemma assignsWithin_compile_assign {targets : List Expr} (hs : targets ⊆ ts)
    (h : d.AssignsWithin ts) (values : List Expr) (define : Bool) (op : Option BinaryOp) :
    (compile loops l (.assign targets values define op) next d).2.AssignsWithin ts := by
  cases op with
  | none =>
    rw [compile]
    exact h.add fun _ _ _ _ heq => (Point.assign.inj heq).1 ▸ hs
  | some op =>
    by_cases hone : ∃ target value, targets = [target] ∧ values = [value]
    · obtain ⟨target, value, rfl, rfl⟩ := hone
      rw [compile, compound_eq]
      exact h.add fun _ _ _ _ heq => (Point.assign.inj heq).1 ▸ hs
    · rw [compile]
      · exact h.add (by simp)
      · exact fun target value ht hv => hone ⟨target, value, ht, hv⟩

lemma assignsWithin_compile {s : Stmt} (hs : s.targets ⊆ ts) (h : d.AssignsWithin ts) :
    (compile loops l s next d).2.AssignsWithin ts := by
  induction s generalizing loops l next d with
  | empty => simpa [compile] using h
  | expr e =>
    rw [compile]
    exact h.add (by simp)
  | assign targets values define op =>
    exact assignsWithin_compile_assign hs h values define op
  | count target up =>
    rw [compile, compound_eq]
    exact h.add fun _ _ _ _ heq => (Point.assign.inj heq).1 ▸ hs
  | nil => simpa [compile, compileAll] using h
  | cons s rest ihs ihrest =>
    rw [Stmt.targets, targetsAll, List.append_subset] at hs
    have hrest : (compileAll loops rest next d).2.AssignsWithin ts := by
      have hs := hs.2
      rw [← Stmt.targets] at hs
      simpa only [compile] using @ihrest loops none next d hs h
    rw [compile, compileAll]
    exact ihs hs.1 hrest
  | ifElse init test body otherwise ihinit ihbody ihelse =>
    simp only [Stmt.targets, targetsOption_eq, List.append_subset] at hs
    simp only [compile, compileOption_eq]
    exact ihinit hs.1.1 ((ihelse hs.2 (ihbody hs.1.2 h)).add (by simp))
  | loop init test post body ihinit ihpost ihbody =>
    simp only [Stmt.targets, targetsOption_eq, List.append_subset] at hs
    simp only [compile, compileOption_eq]
    have hhead : (d.add (.branch test next next)).2.AssignsWithin ts := h.add (by simp)
    exact ihinit hs.1.1 ((ihbody hs.2 (ihpost hs.1.2 hhead)).aimTrue _ _)
  | jump kind label =>
    rw [compile]
    exact assignsWithin_jumpTo h kind label
  | ret results =>
    rw [compile]
    exact h.add (by simp)
  | labeled label body ih =>
    rw [compile]
    exact ih hs h
  | other kind =>
    rw [compile]
    exact h.add (by simp)

/-- The graph of a body assigns to what the body assigns to. -/
theorem targets_subset_of_get? {body : Stmt} {p next : PointId} {targets values : List Expr}
    {define : Bool} (h : body.graph.2.get? p = some (.assign targets values define next)) :
    targets ⊆ body.targets := by
  have hexit : Draft.AssignsWithin body.targets { graph := .exit } := by
    intro p targets values define next hp
    have := Array.mem_of_getElem? hp
    simp [FlowGraph.exit] at this
  exact (assignsWithin_compile (List.Subset.refl _) hexit).settle _ _ _ _ _ h

end Stmt

end Staged
