import Staged.Proofs.Eval.Staging
import Staged.Variable

/-!
When an expression folds to a known value. Known variables are not enough: a literal without a value
of its own, a name that is no variable, an index or an operator that has nothing to say about its
operands keep an expression residual, and nothing else does.
-/

namespace Staged

namespace Value

variable {v w u : Value}

lemma isKnown_binary {op : BinaryOp} : (binary op v w).isKnown = (op.onValues? v w).isSome := by
  rcases h : op.onValues? v w with _ | u
  · simp [binary, h, isKnown]
  · simpa [binary, h] using (BinaryOp.isKnown_of_onValues? h).2.2

lemma isKnown_unary {op : UnaryOp} : (unary op v).isKnown = (op.onValue? v).isSome := by
  rcases h : op.onValue? v with _ | u
  · simp [unary, h, isKnown]
  · simpa [unary, h] using (UnaryOp.isKnown_of_onValue? h).2

lemma isKnown_of_isKnown_binary {op : BinaryOp} (h : (binary op v w).isKnown) :
    v.isKnown ∧ w.isKnown := by
  rw [isKnown_binary, Option.isSome_iff_exists] at h
  obtain ⟨u, hu⟩ := h
  exact ⟨(BinaryOp.isKnown_of_onValues? hu).1, (BinaryOp.isKnown_of_onValues? hu).2.1⟩

lemma isKnown_of_isKnown_unary {op : UnaryOp} (h : (unary op v).isKnown) : v.isKnown := by
  rw [isKnown_unary, Option.isSome_iff_exists] at h
  obtain ⟨u, hu⟩ := h
  exact (UnaryOp.isKnown_of_onValue? hu).1

@[simp] lemma isKnown_paren : v.paren.isKnown = v.isKnown := by cases v <;> rfl

/-- Only what is not known has members, and they are not known either. -/
lemma isKnown_of_member_eq_ok {x : String} (h : v.member x = .ok u) :
    v.isKnown = false ∧ u.isKnown = false := by
  cases v with
  | unknown e => exact ⟨rfl, Except.ok.inj h ▸ rfl⟩
  | int | string | bool => simp [member] at h

/-- Only what is not known can be called, and nothing is known of what it yields. -/
lemma isKnown_of_call_eq_ok {ws us : List Value} (h : v.call ws = .ok us) :
    v.isKnown = false ∧ ∀ u, single us = .ok u → u.isKnown = false := by
  cases v with
  | unknown e =>
    obtain rfl := Except.ok.inj h
    exact ⟨rfl, fun u hu => Except.ok.inj hu ▸ rfl⟩
  | int | string | bool => simp [call] at h

end Value

namespace Expr

variable {resolve : Resolver} {ρ : Env}

/-- A part of the expression that is no variable keeps it from folding. -/
inductive Blocked (resolve : Resolver) (ρ : Env) : Expr → Prop where
  /-- A literal that stands for no known value. -/
  | lit {l : Literal} (h : l.value.isKnown = false) : Blocked resolve ρ (.lit l)
  /-- A name that is no variable, and not bound to a known value. -/
  | ident {x : Ident} (hx : resolve x = none) (h : (x.value ρ).isKnown = false) :
      Blocked resolve ρ (.ident x)
  /-- An operator that does not fold its operands, although they are known: division by zero, a
  shift by a negative count, operands of kinds that do not go together. -/
  | binary {op a b v w} (ha : a.value ρ = .ok v) (hb : b.value ρ = .ok w) (hv : v.isKnown)
      (hw : w.isKnown) (h : op.onValues? v w = none) : Blocked resolve ρ (.binary op a b)
  | unary {op a v} (harith : op.isArithmetic) (ha : a.value ρ = .ok v) (hv : v.isKnown)
      (h : op.onValue? v = none) : Blocked resolve ρ (.unary op a)
  /-- An operator that names storage or waits for a message. -/
  | storage {op a} (h : op.isArithmetic = false) : Blocked resolve ρ (.unary op a)
  | index {a i} : Blocked resolve ρ (.index a i)
  | left {op a b} (h : Blocked resolve ρ a) : Blocked resolve ρ (.binary op a b)
  | right {op a b} (h : Blocked resolve ρ b) : Blocked resolve ρ (.binary op a b)
  | operand {op a} (h : Blocked resolve ρ a) : Blocked resolve ρ (.unary op a)
  | callee {f args} (h : Blocked resolve ρ f) : Blocked resolve ρ (.call f args)
  | inner {a} (h : Blocked resolve ρ a) : Blocked resolve ρ (.paren a)
  | receiver {a x} (h : Blocked resolve ρ a) : Blocked resolve ρ (.selector a x)

/-- What comes out known reads nothing but known variables. -/
lemma isKnown_of_mem_idents {e : Expr} {v : Value} (hv : e.value ρ = .ok v) (h : v.isKnown)
    {x : Ident} (hx : x ∈ e.idents) : (ρ x.name).isKnown := by
  induction e generalizing v with
  | lit l => simp [idents] at hx
  | ident y =>
    rcases hy : y.isBoolConstant with _ | _
    · simp only [idents, hy, Bool.false_eq_true, if_false, List.mem_singleton] at hx
      obtain rfl := Except.ok.inj hv
      simp only [Ident.isBoolConstant, Bool.or_eq_false_iff, beq_eq_false_iff_ne] at hy
      simpa [hx, Ident.value, hy.1, hy.2] using h
    · simp [idents, hy] at hx
  | binary op a b iha ihb =>
    simp only [value_binary, bind_eq_ok, pure_eq_ok, Except.ok.injEq] at hv
    obtain ⟨va, ha, vb, hb, rfl⟩ := hv
    obtain ⟨hva, hvb⟩ := Value.isKnown_of_isKnown_binary h
    rcases List.mem_append.1 hx with hx | hx
    · exact iha ha hva hx
    · exact ihb hb hvb hx
  | unary op a ih =>
    rcases harith : op.isArithmetic with _ | _
    · rw [value_unary_verbatim ρ harith] at hv
      simp [← Except.ok.inj hv, Value.isKnown] at h
    · simp only [value_unary ρ harith, bind_eq_ok, pure_eq_ok, Except.ok.injEq] at hv
      obtain ⟨va, ha, rfl⟩ := hv
      exact ih ha (Value.isKnown_of_isKnown_unary h) hx
  | call f args _ _ =>
    simp only [value_call, bind_eq_ok] at hv
    obtain ⟨vf, -, ws, -, us, hcall, hv⟩ := hv
    simp [(Value.isKnown_of_call_eq_ok hcall).2 v hv] at h
  | paren a ih =>
    simp only [value_paren, bind_eq_ok, pure_eq_ok, Except.ok.injEq] at hv
    obtain ⟨va, ha, rfl⟩ := hv
    exact ih ha (by simpa using h) hx
  | selector a y _ =>
    simp only [value_selector, bind_eq_ok] at hv
    obtain ⟨va, -, hv⟩ := hv
    simp [(Value.isKnown_of_member_eq_ok hv).2] at h
  | index a i => simp [← Except.ok.inj hv, Value.isKnown] at h

/-- What keeps a part from folding keeps the whole from folding. -/
lemma Blocked.isKnown_eq_false {e : Expr} (h : e.Blocked resolve ρ) {v : Value}
    (hv : e.value ρ = .ok v) : v.isKnown = false := by
  induction h generalizing v with
  | lit h => exact Except.ok.inj hv ▸ h
  | ident hx h => exact Except.ok.inj hv ▸ h
  | binary ha hb _ _ h =>
    simp only [value_binary, ha, hb, ok_bind, pure_eq_ok, Except.ok.injEq] at hv
    simp [← hv, Value.isKnown_binary, h]
  | unary harith ha _ h =>
    simp only [value_unary ρ harith, ha, ok_bind, pure_eq_ok, Except.ok.injEq] at hv
    simp [← hv, Value.isKnown_unary, h]
  | storage h =>
    rw [value_unary_verbatim ρ h] at hv
    exact Except.ok.inj hv ▸ rfl
  | index => exact Except.ok.inj hv ▸ rfl
  | left _ ih =>
    simp only [value_binary, bind_eq_ok, pure_eq_ok, Except.ok.injEq] at hv
    obtain ⟨va, ha, vb, -, rfl⟩ := hv
    exact Bool.eq_false_iff.2 fun hk =>
      Bool.eq_false_iff.1 (ih ha) (Value.isKnown_of_isKnown_binary hk).1
  | right _ ih =>
    simp only [value_binary, bind_eq_ok, pure_eq_ok, Except.ok.injEq] at hv
    obtain ⟨va, -, vb, hb, rfl⟩ := hv
    exact Bool.eq_false_iff.2 fun hk =>
      Bool.eq_false_iff.1 (ih hb) (Value.isKnown_of_isKnown_binary hk).2
  | @operand op a _ ih =>
    rcases harith : op.isArithmetic with _ | _
    · rw [value_unary_verbatim ρ harith] at hv
      exact Except.ok.inj hv ▸ rfl
    · simp only [value_unary ρ harith, bind_eq_ok, pure_eq_ok, Except.ok.injEq] at hv
      obtain ⟨va, ha, rfl⟩ := hv
      exact Bool.eq_false_iff.2 fun hk =>
        Bool.eq_false_iff.1 (ih ha) (Value.isKnown_of_isKnown_unary hk)
  | callee =>
    simp only [value_call, bind_eq_ok] at hv
    obtain ⟨vf, -, ws, -, us, hcall, hv⟩ := hv
    exact (Value.isKnown_of_call_eq_ok hcall).2 v hv
  | inner _ ih =>
    simp only [value_paren, bind_eq_ok, pure_eq_ok, Except.ok.injEq] at hv
    obtain ⟨va, ha, rfl⟩ := hv
    simpa using ih ha
  | receiver =>
    simp only [value_selector, bind_eq_ok] at hv
    obtain ⟨va, -, hv⟩ := hv
    exact (Value.isKnown_of_member_eq_ok hv).2

/-- Nothing else keeps an expression from folding whose variables are known. -/
lemma blocked_of_isKnown_eq_false {e : Expr} {v : Value} (hv : e.value ρ = .ok v)
    (hknown : ∀ x ∈ e.idents, (resolve x).isSome → (ρ x.name).isKnown) (h : v.isKnown = false) :
    e.Blocked resolve ρ := by
  induction e generalizing v with
  | lit l =>
    obtain rfl := Except.ok.inj hv
    exact .lit h
  | ident x =>
    obtain rfl := Except.ok.inj hv
    refine .ident (Option.eq_none_iff_forall_ne_some.2 fun u hu => ?_) h
    rcases hx : x.isBoolConstant with _ | _
    · have hxv := hknown x (by simp [idents, hx]) (by simp [hu])
      simp only [Ident.isBoolConstant, Bool.or_eq_false_iff, beq_eq_false_iff_ne] at hx
      simp [Ident.value, hx.1, hx.2, hxv] at h
    · have hx : x.name = "true" ∨ x.name = "false" := by simpa [Ident.isBoolConstant] using hx
      rcases hx with hx | hx <;> simp [Ident.value, hx, Value.isKnown] at h
  | binary op a b iha ihb =>
    simp only [idents, List.mem_append] at hknown
    simp only [value_binary, bind_eq_ok, pure_eq_ok, Except.ok.injEq] at hv
    obtain ⟨va, ha, vb, hb, rfl⟩ := hv
    rcases hva : va.isKnown with _ | _
    · exact .left (iha ha (fun x hx => hknown x (.inl hx)) hva)
    rcases hvb : vb.isKnown with _ | _
    · exact .right (ihb hb (fun x hx => hknown x (.inr hx)) hvb)
    · rw [Value.isKnown_binary, Option.isSome_eq_false_iff, Option.isNone_iff_eq_none] at h
      exact .binary ha hb hva hvb h
  | unary op a ih =>
    rcases harith : op.isArithmetic with _ | _
    · exact .storage harith
    simp only [value_unary ρ harith, bind_eq_ok, pure_eq_ok, Except.ok.injEq] at hv
    obtain ⟨va, ha, rfl⟩ := hv
    rcases hva : va.isKnown with _ | _
    · exact .operand (ih ha hknown hva)
    · rw [Value.isKnown_unary, Option.isSome_eq_false_iff, Option.isNone_iff_eq_none] at h
      exact .unary harith ha hva h
  | call f args ihf _ =>
    simp only [idents, List.mem_append] at hknown
    simp only [value_call, bind_eq_ok] at hv
    obtain ⟨vf, hf, ws, -, us, hcall, -⟩ := hv
    exact .callee (ihf hf (fun x hx => hknown x (.inl hx)) (Value.isKnown_of_call_eq_ok hcall).1)
  | paren a ih =>
    simp only [value_paren, bind_eq_ok, pure_eq_ok, Except.ok.injEq] at hv
    obtain ⟨va, ha, rfl⟩ := hv
    exact .inner (ih ha hknown (by simpa using h))
  | selector a x ih =>
    simp only [value_selector, bind_eq_ok] at hv
    obtain ⟨va, ha, hmember⟩ := hv
    exact .receiver (ih ha hknown (Value.isKnown_of_member_eq_ok hmember).1)
  | index a i => exact .index

/-- **Folding.** An expression whose variables are known folds to a known value, unless a part of it
that is no variable keeps it from folding. -/
theorem isKnown_iff_not_blocked {e : Expr} {v : Value} (hv : e.value ρ = .ok v)
    (hknown : ∀ x ∈ e.idents, (resolve x).isSome → (ρ x.name).isKnown) :
    v.isKnown ↔ ¬ e.Blocked resolve ρ := by
  rw [← Bool.not_eq_false, not_iff_not]
  exact ⟨blocked_of_isKnown_eq_false hv hknown, fun h => h.isKnown_eq_false hv⟩

end Expr

end Staged
