import Staged.Proofs.Eval.Basic
import Staged.Proofs.Text.Numeral
import Staged.Proofs.Text.Quoted

/-!
Evaluation can be staged: to evaluate under what is known now, and the expression that is left under
what is known later, is to evaluate once under both. A value goes on to the later stage by its own
expression, so the operations on values must not mind whether their operands went on before or go on
after them; this is what the `resume` lemmas say.
-/

namespace Staged

lemma Literal.value_eq_of_not_isKnown {l : Literal} (h : ¬ l.value.isKnown) :
    l.value = .unknown (.lit l) := by
  unfold Literal.value at h ⊢
  split <;> simp_all [Value.isKnown]
  split <;> simp_all

namespace Value

/-- What becomes of a value once `ρ` is known. -/
def resume (ρ : Env) (v : Value) : Except EvalError Value := v.expr.value ρ

variable {ρ : Env}

@[simp] lemma resume_unknown (e : Expr) : (unknown e).resume ρ = e.value ρ := rfl

/-- A known value is written out and read back. -/
lemma resume_of_isKnown {v : Value} (h : v.isKnown) : v.resume ρ = .ok v := by
  cases v with
  | unknown e => simp [isKnown] at h
  | int n => simp [resume, expr, Expr.value_lit, Literal.value, Literal.ofInt]
  | string s => simp [resume, expr, Expr.value_lit, Literal.value, Literal.ofString]
  | bool b => cases b <;> rfl

/-- **Known values can be written out.** The expression of a known value evaluates to this value
alone, whatever the environment says, also of the names of the truth values. For this, quoting loses
nothing of any text, and the decimal text of an integer reads back, the least one included. -/
theorem eval_expr_of_isKnown :
    (∀ v : Value, v.isKnown → ∀ ρ : Env, v.expr.eval ρ = .ok [v]) ∧
    (∀ s : String, Quoted.decode (Quoted.encode s) = some s) ∧
    ∀ n : Int64, Numeral.decode (Numeral.encode n) = n := by
  refine ⟨fun v hv ρ => ?_, Quoted.decode_encode, Numeral.decode_encode⟩
  have hvalue : v.expr.value ρ = .ok v := resume_of_isKnown hv
  rw [Expr.eval_eq, hvalue]
  rfl

/-- The names of the truth values are bound to other values, and the text has characters of every
kind: quotes, a backslash, a null character, others with and without a letter of their own. -/
theorem eval_expr_of_isKnown_bound :
    let ρ := (Scope.ofList [("true", .int 0), ("false", .string "no")]).lookup
    let text := "\"q\" \\ \x00\x07\n\x7f é ∀"
    (bool true).expr.eval ρ = .ok [bool true] ∧
      (int Int64.minValue).expr.eval ρ = .ok [int Int64.minValue] ∧
      (string text).expr.eval ρ = .ok [string text] := by
  intro ρ text
  obtain ⟨heval, -⟩ := eval_expr_of_isKnown
  exact ⟨heval _ rfl ρ, heval _ rfl ρ, heval _ rfl ρ⟩

/-- What is known is known for good. -/
lemma eq_of_resume_eq_ok {v w : Value} (hv : v.isKnown) (h : v.resume ρ = .ok w) : w = v := by
  rw [resume_of_isKnown hv] at h
  exact (Except.ok.inj h).symm

lemma resume_literal (l : Literal) : l.value.resume ρ = .ok l.value := by
  by_cases h : l.value.isKnown
  · exact resume_of_isKnown h
  · have hl := Literal.value_eq_of_not_isKnown h
    rw [hl, resume_unknown, Expr.value_lit, hl]

lemma resume_free {x : String} (ht : x ≠ "true") (hf : x ≠ "false") :
    (free x).resume ρ = .ok (ρ x) := by
  simp [free, Expr.name, Expr.value_ident, Ident.value, ht, hf]

end Value

/-! ### Operators fold known values to known values -/

lemma BinaryOp.isKnown_of_onValues? {op : BinaryOp} {v w u : Value}
    (h : op.onValues? v w = some u) : v.isKnown ∧ w.isKnown ∧ u.isKnown := by
  cases v <;> cases w <;> simp only [onValues?, reduceCtorEq] at h
  all_goals
    refine ⟨rfl, rfl, ?_⟩
    cases op <;> simp only [onInts?, onStrings?, onBools?, reduceCtorEq, Option.some.injEq,
      Option.ite_none_left_eq_some] at h
    all_goals first
      | rw [← h]; rfl
      | rw [← h.2]; rfl

lemma UnaryOp.isKnown_of_onValue? {op : UnaryOp} {v u : Value} (h : op.onValue? v = some u) :
    v.isKnown ∧ u.isKnown := by
  cases op <;> cases v <;> simp only [onValue?, reduceCtorEq, Option.some.injEq] at h
  all_goals exact ⟨rfl, h ▸ rfl⟩

namespace Value

variable {ρ : Env}

lemma resume_binary (op : BinaryOp) (v w : Value) :
    (binary op v w).resume ρ = do return binary op (← v.resume ρ) (← w.resume ρ) := by
  rcases h : op.onValues? v w with _ | u
  · have hu : binary op v w = unknown (.binary op v.expr w.expr) := by simp [binary, h]
    rw [hu, resume_unknown, Expr.value_binary]
    rfl
  · obtain ⟨hv, hw, hu⟩ := BinaryOp.isKnown_of_onValues? h
    simp [binary, h, resume_of_isKnown hv, resume_of_isKnown hw, resume_of_isKnown hu]

lemma resume_unary {op : UnaryOp} (ha : op.isArithmetic) (v : Value) :
    (unary op v).resume ρ = do return unary op (← v.resume ρ) := by
  rcases h : op.onValue? v with _ | u
  · have hu : unary op v = unknown (.unary op v.expr) := by simp [unary, h]
    rw [hu, resume_unknown, Expr.value_unary ρ ha]
    rfl
  · obtain ⟨hv, hu⟩ := UnaryOp.isKnown_of_onValue? h
    simp [unary, h, resume_of_isKnown hv, resume_of_isKnown hu]

lemma paren_of_isKnown {v : Value} (h : v.isKnown) : v.paren = v := by
  cases v with
  | unknown e => simp [isKnown] at h
  | int | string | bool => rfl

lemma eq_unknown_of_not_isKnown {v : Value} (h : ¬ v.isKnown) : v = unknown v.expr := by
  cases v with
  | unknown e => rfl
  | int | string | bool => simp [isKnown] at h

lemma resume_paren (v : Value) : v.paren.resume ρ = do return (← v.resume ρ).paren := by
  by_cases h : v.isKnown
  · simp [paren_of_isKnown h, resume_of_isKnown h]
  · rw [eq_unknown_of_not_isKnown h]
    exact Expr.value_paren ρ v.expr

lemma member_of_isKnown {v : Value} (h : v.isKnown) (x : String) :
    v.member x = .error (.invalidOperation .memberAccess v) := by
  cases v with
  | unknown e => simp [isKnown] at h
  | int | string | bool => rfl

lemma call_of_isKnown {v : Value} (h : v.isKnown) (ws : List Value) :
    v.call ws = .error (.invalidOperation .call v) := by
  cases v with
  | unknown e => simp [isKnown] at h
  | int | string | bool => rfl

end Value

/-- `y` is what becomes of the result `x` at the later stage, where `f` takes an outcome to that
stage. An error may turn into another one. -/
def Resumes {α : Type} (f : α → Except EvalError α) : (x y : Except EvalError α) → Prop
  | .ok a, y => f a = y
  | .error _, y => ∃ err, y = .error err

namespace Resumes

variable {ρ : Env}

lemma binary {x x' y y' : Except EvalError Value} (hx : Resumes (Value.resume ρ) x x')
    (hy : Resumes (Value.resume ρ) y y') (op : BinaryOp) :
    Resumes (Value.resume ρ) (do return .binary op (← x) (← y))
      (do return .binary op (← x') (← y')) := by
  rcases x with err | v
  · obtain ⟨err, rfl⟩ := hx
    exact ⟨err, rfl⟩
  · cases hx
    rcases y with err | w
    · obtain ⟨err, rfl⟩ := hy
      cases v.resume ρ <;> exact ⟨_, rfl⟩
    · cases hy
      exact Value.resume_binary op v w

lemma map {x x' : Except EvalError Value} {k : Value → Except EvalError Value}
    (hx : Resumes (Value.resume ρ) x x')
    (hk : ∀ v, Resumes (Value.resume ρ) (k v) (v.resume ρ >>= k)) :
    Resumes (Value.resume ρ) (x >>= k) (x' >>= k) := by
  rcases x with err | v
  · obtain ⟨err, rfl⟩ := hx
    exact ⟨err, rfl⟩
  · cases hx
    exact hk v

lemma member (v : Value) (x : String) :
    Resumes (Value.resume ρ) (v.member x) (v.resume ρ >>= (·.member x)) := by
  by_cases h : v.isKnown
  · rw [Value.member_of_isKnown h, Value.resume_of_isKnown h]
    exact ⟨_, Value.member_of_isKnown h x⟩
  · rw [Value.eq_unknown_of_not_isKnown h]
    exact Expr.value_selector ρ v.expr { name := x }

lemma call {x x' : Except EvalError Value} {y y' : Except EvalError (List Value)}
    (hx : Resumes (Value.resume ρ) x x') (hy : Resumes (List.mapM (Value.resume ρ)) y y') :
    Resumes (Value.resume ρ) (do single (← (← x).call (← y)))
      (do single (← (← x').call (← y'))) := by
  rcases x with err | v
  · obtain ⟨err, rfl⟩ := hx
    exact ⟨err, rfl⟩
  · cases hx
    by_cases h : v.isKnown
    · rw [Value.resume_of_isKnown h]
      rcases y with err | ws
      · obtain ⟨err, rfl⟩ := hy
        exact ⟨err, rfl⟩
      · cases hy
        simp only [ok_bind, Value.call_of_isKnown h, error_bind]
        cases ws.mapM (Value.resume ρ) <;> exact ⟨_, rfl⟩
    · rw [Value.eq_unknown_of_not_isKnown h]
      rcases y with err | ws
      · obtain ⟨err, rfl⟩ := hy
        cases (Value.unknown v.expr).resume ρ <;> exact ⟨_, rfl⟩
      · cases hy
        have hargs : (ws.map Value.expr).mapM (Expr.value ρ) = ws.mapM (Value.resume ρ) :=
          List.mapM_map
        rw [← hargs]
        exact Expr.value_call ρ v.expr (ws.map Value.expr)

lemma args {σ τ : Env} {es : List Expr}
    (h : ∀ e ∈ es, Resumes (Value.resume ρ) (e.value σ) (e.value τ)) :
    Resumes (List.mapM (Value.resume ρ)) (es.mapM (Expr.value σ)) (es.mapM (Expr.value τ)) := by
  induction es with
  | nil => rfl
  | cons e es ih =>
    have he := h e List.mem_cons_self
    have hes := ih fun a ha => h a (List.mem_cons_of_mem e ha)
    rw [List.mapM_cons, List.mapM_cons]
    rcases hv : e.value σ with err | v
    · obtain ⟨err, he⟩ := hv ▸ he
      exact ⟨err, by rw [he]; rfl⟩
    · rw [hv] at he
      rcases hvs : es.mapM (Expr.value σ) with err | vs
      · obtain ⟨err, hes⟩ := hvs ▸ hes
        rw [hes]
        cases e.value τ <;> exact ⟨_, rfl⟩
      · rw [hvs] at hes
        rw [← show _ = e.value τ from he, ← show _ = es.mapM (Expr.value τ) from hes]
        exact List.mapM_cons

end Resumes

/-- Under `τ` the name `x` has the value that comes of its value under `σ` once `ρ` is known. -/
def Env.Composes (σ ρ τ : Env) (x : String) : Prop := (σ x).resume ρ = .ok (τ x)

namespace Expr

variable {σ ρ τ : Env}

/-- One stage after the other gives what one stage under both gives. -/
theorem resumes_value {e : Expr} (h : ∀ x ∈ e.idents, σ.Composes ρ τ x.name) :
    Resumes (Value.resume ρ) (e.value σ) (e.value τ) := by
  induction e with
  | lit l => exact Value.resume_literal l
  | ident x =>
    rw [value_ident, value_ident]
    rcases hx : x.isBoolConstant with _ | _
    · obtain ⟨ht, hf⟩ : x.name ≠ "true" ∧ x.name ≠ "false" := by
        simpa [Ident.isBoolConstant] using hx
      simp only [Ident.value, ht, hf, if_false]
      exact h x (by simp [idents, hx])
    · have hx : x.name = "true" ∨ x.name = "false" := by simpa [Ident.isBoolConstant] using hx
      rcases hx with hx | hx <;> simp only [Ident.value, hx] <;> rfl
  | binary op a b iha ihb =>
    simp only [idents, List.mem_append] at h
    rw [value_binary, value_binary]
    exact (iha fun x hx => h x (.inl hx)).binary (ihb fun x hx => h x (.inr hx)) op
  | unary op a ih =>
    rcases ha : op.isArithmetic with _ | _
    · rw [value_unary_verbatim σ ha, value_unary_verbatim τ ha]
      exact value_unary_verbatim ρ ha a
    · rw [value_unary σ ha, value_unary τ ha]
      exact (ih h).map (Value.resume_unary ha)
  | call f args ihf ihargs =>
    simp only [idents, List.mem_append, identsAll_eq_flatMap, List.mem_flatMap] at h
    rw [value_call, value_call]
    exact (ihf fun x hx => h x (.inl hx)).call
      (.args fun a ha => ihargs a ha fun x hx => h x (.inr ⟨a, ha, hx⟩))
  | paren a ih =>
    rw [value_paren, value_paren]
    exact (ih h).map Value.resume_paren
  | selector a x ih =>
    rw [value_selector, value_selector]
    exact (ih h).map (Resumes.member · x.name)
  | index a i => exact value_index ρ a i

/-- **Staging.** Evaluating what is left of an expression gives the same values, or the same error,
as evaluating the expression when all is known; and an error at the first stage is bound to come. -/
theorem eval_staged {e : Expr} (h : ∀ x ∈ e.idents, σ.Composes ρ τ x.name) :
    (∀ v, e.value σ = .ok v → v.expr.eval ρ = e.eval τ) ∧
      (∀ err, e.eval σ = .error err → ∃ err', e.eval τ = .error err') := by
  have hres := resumes_value h
  refine ⟨fun v hv => ?_, fun err herr => ?_⟩
  · rw [hv] at hres
    rw [eval_eq, eval_eq]
    exact congrArg (fun r => do return [← r]) hres
  · have hv : e.value σ = .error err := by simp [value, herr]
    rw [hv] at hres
    obtain ⟨err', herr'⟩ := hres
    exact ⟨err', by simp [eval_eq, herr']⟩

/-- `a * b`, where `a` is known at the first stage and `b` at the second. -/
theorem eval_staged_product :
    let e := Expr.binary .mul (.name "a") (.name "b")
    let σ := (Scope.ofList [("a", .int 6)]).lookup
    let ρ := (Scope.ofList [("b", .int 7)]).lookup
    let τ := (Scope.ofList [("a", .int 6), ("b", .int 7)]).lookup
    (∀ x ∈ e.idents, σ.Composes ρ τ x.name) ∧
      (Expr.binary .mul (Value.int 6).expr (.name "b")).eval ρ = e.eval τ ∧
      e.eval τ = .ok [.int 42] := by
  intro e σ ρ τ
  have h : ∀ x ∈ e.idents, σ.Composes ρ τ x.name := by
    intro x hx
    have hx : x.name = "a" ∨ x.name = "b" := by
      simp only [e, name, idents, Ident.isBoolConstant] at hx
      grind
    rcases hx with hx | hx <;> rw [hx]
    · exact Value.resume_of_isKnown rfl
    · exact Value.resume_free (by decide) (by decide)
  exact ⟨h, (eval_staged h).1 _ rfl, rfl⟩

end Expr

end Staged
