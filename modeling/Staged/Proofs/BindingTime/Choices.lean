import Staged.Graph.Flow
import Staged.Proofs.Eval.Folding

/-!
Choices in the eyes of evaluation and of binding-time analysis. Evaluation makes a choice once the
value of its test is known, and the analysis lets it be made once all variables of the test are
known. Evaluation never gets ahead of the analysis.
-/

namespace Staged

namespace FlowGraph

variable {g : FlowGraph} {p ifTrue ifFalse : PointId} {test : Expr}

lemma decides_branch_iff (hp : g.get? p = some (.branch (some test) ifTrue ifFalse))
    (resolve : Resolver) (entry : PointId) (d : Division) :
    (g.flow resolve entry).decides p d ↔
      ∀ x ∈ test.idents, ∀ u, resolve x = some u → d.isKnown u := by
  simp only [flow, hp, Option.map_some, Option.getD_some, Point.decides, List.all_eq_true,
    Expr.mem_vars, List.mem_singleton]
  grind

/-- **A choice that evaluation makes, the analysis lets be made.** If the test at a branch comes out
known, then every variable in it is known, and the choice can be made under every division that
knows those variables of the test that are known in the scope. -/
theorem decides_of_isKnown_value (hp : g.get? p = some (.branch (some test) ifTrue ifFalse))
    (resolve : Resolver) (entry : PointId) (s : Scope) (d : Division)
    (hd : ∀ x ∈ test.idents, ∀ u, resolve x = some u → (s.lookup x.name).isKnown → d.isKnown u)
    {v : Value} (hv : test.value s.lookup = .ok v) (hknown : v.isKnown) :
    (∀ x ∈ test.idents, (s.lookup x.name).isKnown) ∧ (g.flow resolve entry).decides p d := by
  have hread : ∀ x ∈ test.idents, (s.lookup x.name).isKnown := fun x hx =>
    Expr.isKnown_of_mem_idents hv hknown hx
  refine ⟨hread, (decides_branch_iff hp resolve entry d).2 fun x hx u hu => ?_⟩
  exact hd x hx u hu (hread x hx)

/-- In `n < limit && x == 2` the limit is bound, and no variable for the analysis. -/
theorem decides_of_isKnown_value_limit :
    let test := Expr.binary .logAnd (.binary .lss (.name "n") (.name "limit"))
      (.paren (.binary .eql (.name "x") (Value.int 2).expr))
    let g : FlowGraph := ⟨#[.ret [], .branch (some test) 0 0]⟩
    let resolve := (NameTable.ofList ["n", "x"]).resolve
    let s := Scope.ofList [("n", .int 1), ("limit", .int 5), ("x", .int 3)]
    let d := Division.ofList [(0, true), (1, true)]
    test.value s.lookup = .ok (.bool false) ∧ (s.lookup "limit").isKnown ∧
      (g.flow resolve 1).decides 1 d ∧ ¬ (g.flow resolve 1).decides 1 (.ofList [(0, true)]) := by
  intro test g resolve s d
  have hidents : ∀ x ∈ test.idents, ∀ u, resolve x = some u → d.isKnown u := by decide
  have hvalue : test.value s.lookup = .ok (.bool false) := rfl
  have h := decides_of_isKnown_value (g := g) (p := 1) rfl resolve 1 s d
    (fun x hx u hu _ => hidents x hx u hu) hvalue rfl
  exact ⟨hvalue, h.1 ⟨"limit", 0⟩ (by decide), h.2, by decide⟩

end FlowGraph

end Staged
