import Staged.Proofs.Eval.Basic

/-!
What evaluation reads of an environment: the values of the identifiers that the expression reports,
and nothing about how the environment keeps them.
-/

namespace Staged

/-! ### Scopes and tables -/

lemma Table.lookup_empty (x : String) : ({} : Table).lookup x = .free x := by
  simp [Table.lookup]

/-- A scope and a table that look all names up alike still do when both take up the same pairs. -/
lemma lookup_foldl_eq {s : Scope} {t : Table} (h : s.lookup = t.lookup)
    (pairs : List (String × Value)) :
    (pairs.foldl (fun s (x, v) => s.bind x v) s).lookup =
      (pairs.foldl (fun t (x, v) => t.insert x v) t).lookup := by
  induction pairs generalizing s t with
  | nil => exact h
  | cons pair pairs ih =>
    rw [List.foldl_cons, List.foldl_cons]
    apply ih
    funext y
    rw [Scope.lookup_bind, Table.lookup_insert, h]

/-- What is bound last counts in a scope, and what is inserted last in a table. -/
theorem Scope.lookup_ofList (pairs : List (String × Value)) :
    (Scope.ofList pairs).lookup = (Table.ofList pairs).lookup := by
  apply lookup_foldl_eq
  funext x
  rw [Scope.lookup_empty, Table.lookup_empty]

namespace Expr

/-- **Evaluation reads only the identifiers of an expression.** Environments that agree on them, of
whatever kind they are, give the same values or the same error; so do a scope and a table that are
made from the same pairs. -/
theorem eval_eq_of_lookup_eq :
    (∀ (ρ σ : Env) (e : Expr), (∀ x ∈ e.idents, ρ x.name = σ x.name) → e.eval ρ = e.eval σ) ∧
    (∀ (ρ σ : Env) (es : List Expr), (∀ x ∈ identsAll es, ρ x.name = σ x.name) →
      evalArgs ρ es = evalArgs σ es) ∧
    ∀ pairs : List (String × Value),
      (∀ e : Expr, e.eval (Scope.ofList pairs).lookup = e.eval (Table.ofList pairs).lookup) ∧
      ∀ es : List Expr, evalArgs (Scope.ofList pairs).lookup es =
        evalArgs (Table.ofList pairs).lookup es := by
  refine ⟨fun ρ σ e h => ?_, fun ρ σ es h => ?_, fun pairs => ?_⟩
  · rw [eval_eq, eval_eq, value_congr h]
  · refine evalArgs_congr fun e he x hx => h x ?_
    rw [identsAll_eq_flatMap, List.mem_flatMap]
    exact ⟨e, he, hx⟩
  · rw [Scope.lookup_ofList]
    exact ⟨fun _ => rfl, fun _ => rfl⟩

/-- The scope and the table disagree on `y` and on `true`, of which the first is only the name of a
member here and the second no variable; the call `x.y(true)` fails under both alike. -/
theorem eval_eq_of_lookup_eq_member :
    let s := Scope.ofList [("x", .int 1), ("y", .int 2), ("true", .int 0)]
    let t := Table.ofList [("x", .int 1)]
    let e := Expr.call (.selector (.name "x") { name := "y" }) [.name "true"]
    (∀ x ∈ e.idents, s.lookup x.name = t.lookup x.name) ∧ e.eval s.lookup = e.eval t.lookup ∧
      e.eval s.lookup = .error (.invalidOperation .memberAccess (.int 1)) ∧
      evalArgs s.lookup [e] = evalArgs t.lookup [e] := by
  intro s t e
  have h : ∀ x ∈ e.idents, s.lookup x.name = t.lookup x.name := by
    intro x hx
    have hx : x.name = "x" := by
      simp only [e, name, idents, identsAll, Ident.isBoolConstant] at hx
      grind
    rw [hx]
    simp [s, t, Scope.ofList, Table.ofList]
  have hargs : ∀ x ∈ identsAll [e], s.lookup x.name = t.lookup x.name := by
    simpa [identsAll] using h
  exact ⟨h, eval_eq_of_lookup_eq.1 _ _ e h, rfl, eval_eq_of_lookup_eq.2.1 _ _ [e] hargs⟩

end Expr

end Staged
