import Staged.Eval
import Staged.Proofs.Result

/-!
An expression yields exactly one value or an error, so evaluation is told by `value` alone. The
equations of `value`, one for each form of expression, are what later proofs rewrite with.
-/

namespace Staged

@[simp] lemma single_singleton (v : Value) : single [v] = .ok v := rfl

namespace Expr

/-- Induction on an expression, where the arguments of a call are met as members of a list. -/
@[elab_as_elim, induction_eliminator]
theorem induction_on {motive : Expr → Prop} (lit : ∀ l, motive (.lit l))
    (ident : ∀ x, motive (.ident x))
    (binary : ∀ op a b, motive a → motive b → motive (.binary op a b))
    (unary : ∀ op a, motive a → motive (.unary op a))
    (call : ∀ f args, motive f → (∀ a ∈ args, motive a) → motive (.call f args))
    (paren : ∀ a, motive a → motive (.paren a))
    (selector : ∀ a x, motive a → motive (.selector a x))
    (index : ∀ a i, motive a → motive i → motive (.index a i)) (e : Expr) : motive e :=
  @Expr.rec motive (fun args => ∀ a ∈ args, motive a) lit ident binary unary call paren selector
    index (by simp) (by simp +contextual) e

variable (ρ : Env)

attribute [local simp] eval evalEach evalArgs idents

lemma call_eq_ok {v : Value} {ws us : List Value} (h : v.call ws = .ok us) : ∃ u, us = [u] := by
  cases v with
  | unknown e => exact ⟨_, (Except.ok.inj h).symm⟩
  | int | string | bool => simp [Value.call] at h

lemma eq_singleton_of_eval {e : Expr} {vs : List Value} (h : e.eval ρ = .ok vs) :
    ∃ v, vs = [v] := by
  cases e with
  | lit | ident | index => exact ⟨_, (Except.ok.inj h).symm⟩
  | binary | selector | paren =>
    simp only [eval, bind_eq_ok, pure_eq_ok, Except.ok.injEq] at h
    grind
  | unary op a =>
    rw [eval] at h
    split at h <;> simp only [bind_eq_ok, pure_eq_ok, Except.ok.injEq] at h <;> grind
  | call f args =>
    simp only [eval, bind_eq_ok] at h
    obtain ⟨_, _, _, _, _, _, h⟩ := h
    exact call_eq_ok h

/-- An expression yields no more than one value. -/
lemma eval_eq (e : Expr) : e.eval ρ = do return [← e.value ρ] := by
  unfold value
  rcases h : e.eval ρ with err | vs
  · rfl
  · obtain ⟨v, rfl⟩ := eq_singleton_of_eval ρ h
    rfl

lemma evalEach_eq (es : List Expr) : evalEach ρ es = es.mapM (value ρ) := by
  induction es with
  | nil => rfl
  | cons e es ih => simp [ih, value, List.mapM_cons]

/-- Each argument hands over its value, whether it stands alone or not. -/
lemma evalArgs_eq (es : List Expr) : evalArgs ρ es = es.mapM (value ρ) := by
  match es with
  | [] => rfl
  | [e] => simp [eval_eq]
  | e :: e' :: es => simp [evalEach_eq, value]

/-! ### The value of each form -/

lemma value_lit (l : Literal) : (lit l).value ρ = .ok l.value := rfl

lemma value_ident (x : Ident) : (ident x).value ρ = .ok (x.value ρ) := rfl

lemma value_binary (op : BinaryOp) (a b : Expr) :
    (binary op a b).value ρ = do return .binary op (← a.value ρ) (← b.value ρ) := by
  simp [value]

lemma value_unary {op : UnaryOp} (h : op.isArithmetic) (a : Expr) :
    (unary op a).value ρ = do return .unary op (← a.value ρ) := by
  simp [value, h]

lemma value_unary_verbatim {op : UnaryOp} (h : op.isArithmetic = false) (a : Expr) :
    (unary op a).value ρ = .ok (.unknown (unary op a)) := by
  simp [value, h]

lemma value_call (f : Expr) (args : List Expr) :
    (call f args).value ρ = (do
      let v ← f.value ρ
      let us ← v.call (← args.mapM (value ρ))
      single us) := by
  simp [value, evalArgs_eq]

lemma value_paren (a : Expr) : (paren a).value ρ = do return (← a.value ρ).paren := by
  simp [value]

lemma value_selector (a : Expr) (x : Ident) :
    (selector a x).value ρ = (do Value.member (← a.value ρ) x.name) := by
  simp [value]

lemma value_index (a i : Expr) : (index a i).value ρ = .ok (.unknown (index a i)) := rfl

/-! ### What an expression reads -/

variable {ρ} {σ : Env}

lemma mapM_value_congr {es : List Expr} (h : ∀ e ∈ es, e.value ρ = e.value σ) :
    es.mapM (value ρ) = es.mapM (value σ) := by
  induction es with
  | nil => rfl
  | cons e es ih =>
    obtain ⟨he, hes⟩ := List.forall_mem_cons.1 h
    rw [List.mapM_cons, List.mapM_cons, he, ih hes]

/-- An expression reads nothing but its identifiers. -/
theorem value_congr {e : Expr} (h : ∀ x ∈ e.idents, ρ x.name = σ x.name) :
    e.value ρ = e.value σ := by
  induction e with
  | lit | index => rfl
  | ident x =>
    rw [value_ident, value_ident]
    rcases hx : x.isBoolConstant with _ | _
    · have hname := h x (by simp [hx])
      simp only [Ident.value, hname]
    · have hx : x.name = "true" ∨ x.name = "false" := by simpa [Ident.isBoolConstant] using hx
      rcases hx with hx | hx <;> simp [Ident.value, hx]
  | binary op a b iha ihb =>
    simp only [idents, List.mem_append] at h
    rw [value_binary, value_binary, iha fun x hx => h x (.inl hx), ihb fun x hx => h x (.inr hx)]
  | unary op a ih =>
    rcases ha : op.isArithmetic with _ | _
    · rw [value_unary_verbatim ρ ha, value_unary_verbatim σ ha]
    · rw [value_unary ρ ha, value_unary σ ha, ih h]
  | call f args ihf ihargs =>
    simp only [idents, List.mem_append, identsAll_eq_flatMap, List.mem_flatMap] at h
    rw [value_call, value_call, ihf fun x hx => h x (.inl hx),
      mapM_value_congr fun a ha => ihargs a ha fun x hx => h x (.inr ⟨a, ha, hx⟩)]
  | paren a ih => rw [value_paren, value_paren, ih h]
  | selector a x ih => rw [value_selector, value_selector, ih h]

lemma evalArgs_congr {es : List Expr} (h : ∀ e ∈ es, ∀ x ∈ e.idents, ρ x.name = σ x.name) :
    evalArgs ρ es = evalArgs σ es := by
  rw [evalArgs_eq, evalArgs_eq]
  exact mapM_value_congr fun e he => value_congr (h e he)

end Expr

end Staged
