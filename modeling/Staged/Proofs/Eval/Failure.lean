import Staged.Proofs.Eval.Folding

/-!
Where evaluation fails. A known value can neither be called nor has it members, and nothing else
goes wrong: an expression fails exactly if what it calls or takes a member of comes out known, and
its error is that of the first such operand in the order of evaluation.
-/

namespace Staged

namespace Expr

mutual

/-- What evaluation calls and takes members of, with the use it makes of it, in the order in which
it comes to these uses. -/
@[simp] def heads : Expr → List (Misuse × Expr)
  | .lit _ | .ident _ | .index .. => []
  | .binary _ a b => a.heads ++ b.heads
  | .unary op a => if op.isArithmetic then a.heads else []
  | .call f args => f.heads ++ headsAll args ++ [(.call, f)]
  | .paren a => a.heads
  | .selector a _ => a.heads ++ [(.memberAccess, a)]

@[simp] def headsAll : List Expr → List (Misuse × Expr)
  | [] => []
  | e :: es => e.heads ++ headsAll es

end

lemma mem_headsAll {es : List Expr} {h : Misuse × Expr} :
    h ∈ headsAll es ↔ ∃ e ∈ es, h ∈ e.heads := by
  induction es with
  | nil => simp
  | cons e es ih => simp [ih]

variable {ρ : Env} {e : Expr} {v : Value} {h : Misuse × Expr}

/-- The error of a use whose operand comes out known. -/
def misuse? (ρ : Env) (h : Misuse × Expr) : Option EvalError :=
  match h.2.value ρ with
  | .ok v => if v.isKnown then some (.invalidOperation h.1 v) else none
  | .error _ => none

lemma misuse?_eq_some {err : EvalError} :
    misuse? ρ h = some err ↔
      ∃ v, h.2.value ρ = .ok v ∧ v.isKnown ∧ err = .invalidOperation h.1 v := by
  unfold misuse?
  rcases h.2.value ρ with err' | v
  · simp
  · simp only [Option.ite_none_right_eq_some, Option.some.injEq, Except.ok.injEq, exists_eq_left']
    exact and_congr_right fun _ => eq_comm

lemma failure?_mapM_value (ρ : Env) {es : List Expr}
    (ih : ∀ e ∈ es, failure? (e.value ρ) = e.heads.findSome? (misuse? ρ)) :
    failure? (es.mapM (value ρ)) = (headsAll es).findSome? (misuse? ρ) := by
  induction es with
  | nil => rfl
  | cons e es ihes =>
    obtain ⟨he, hes⟩ := List.forall_mem_cons.1 ih
    rw [headsAll, List.findSome?_append, ← he, ← ihes hes, List.mapM_cons]
    cases e.value ρ <;> cases es.mapM (value ρ) <;> rfl

/-- The error of an expression is the first one among its uses. -/
theorem failure?_value (ρ : Env) (e : Expr) :
    failure? (e.value ρ) = e.heads.findSome? (misuse? ρ) := by
  induction e with
  | lit | ident | index => rfl
  | binary op a b iha ihb =>
    rw [value_binary, heads, List.findSome?_append, ← iha, ← ihb]
    cases a.value ρ <;> cases b.value ρ <;> rfl
  | unary op a ih =>
    rcases harith : op.isArithmetic with _ | _
    · simp [value_unary_verbatim ρ harith, harith]
    · rw [value_unary ρ harith, heads, if_pos harith, ← ih]
      cases a.value ρ <;> rfl
  | call f args ihf ihargs =>
    rw [value_call, heads, List.findSome?_append, List.findSome?_append, ← ihf,
      ← failure?_mapM_value ρ ihargs]
    rcases hf : f.value ρ with err | v
    · rfl
    · -- the call is the last use, and there its operand is at hand
      have hcall : misuse? ρ (.call, f) =
          if v.isKnown then some (.invalidOperation .call v) else none := by
        simp [misuse?, hf]
      rw [List.findSome?_singleton, hcall]
      cases args.mapM (value ρ) <;> cases v <;> rfl
  | paren a ih =>
    rw [value_paren, heads, ← ih]
    cases a.value ρ <;> rfl
  | selector a x ih =>
    rw [value_selector, heads, List.findSome?_append, ← ih]
    rcases ha : a.value ρ with err | v
    · rfl
    · have hmember : misuse? ρ (.memberAccess, a) =
          if v.isKnown then some (.invalidOperation .memberAccess v) else none := by
        simp [misuse?, ha]
      rw [List.findSome?_singleton, hmember]
      cases v <;> rfl

/-- What is used in an operand is used in the expression. -/
lemma heads_subset (hh : h ∈ e.heads) : h.2.heads ⊆ e.heads := by
  induction e with
  | lit | ident | index => simp at hh
  | binary op a b iha ihb =>
    rw [heads] at hh ⊢
    rcases List.mem_append.1 hh with hh | hh
    · exact List.subset_append_of_subset_left _ (iha hh)
    · exact List.subset_append_of_subset_right _ (ihb hh)
  | unary op a ih =>
    rcases harith : op.isArithmetic with _ | _
    · simp [harith] at hh
    · rw [heads, if_pos harith] at hh ⊢
      exact ih hh
  | call f args ihf ihargs =>
    rw [heads] at hh ⊢
    simp only [List.mem_append, List.mem_singleton] at hh
    intro h' hh'
    simp only [List.mem_append]
    rcases hh with (hh | hh) | rfl
    · exact .inl (.inl (ihf hh hh'))
    · obtain ⟨a, ha, hh⟩ := mem_headsAll.1 hh
      exact .inl (.inr (mem_headsAll.2 ⟨a, ha, ihargs a ha hh hh'⟩))
    · exact .inl (.inl hh')
  | paren a ih =>
    rw [heads] at hh ⊢
    exact ih hh
  | selector a x ih =>
    rw [heads] at hh ⊢
    refine List.subset_append_of_subset_left _ ?_
    rcases List.mem_append.1 hh with hh | hh
    · exact ih hh
    · obtain rfl := List.mem_singleton.1 hh
      exact List.Subset.refl _

/-- An expression fails where the operand of some use comes out known. -/
lemma exists_value_eq_error_iff :
    (∃ err, e.value ρ = .error err) ↔ ∃ h ∈ e.heads, ∃ v, h.2.value ρ = .ok v ∧ v.isKnown := by
  constructor
  · rintro ⟨err, herr⟩
    have hfirst := failure?_value ρ e
    rw [herr, failure?_error] at hfirst
    obtain ⟨h, hh, hmisuse⟩ := List.exists_of_findSome?_eq_some hfirst.symm
    obtain ⟨v, hv, hknown, -⟩ := misuse?_eq_some.1 hmisuse
    exact ⟨h, hh, v, hv, hknown⟩
  · rintro ⟨h, hh, v, hv, hknown⟩
    rcases hvalue : e.value ρ with err | u
    · exact ⟨err, rfl⟩
    · have hnone := failure?_value ρ e
      rw [hvalue, failure?_ok, eq_comm, List.findSome?_eq_none_iff] at hnone
      have hmisuse := misuse?_eq_some.2 ⟨v, hv, hknown, rfl⟩
      simp [hnone h hh] at hmisuse

/-- Where an expression does not fail, the operands of all its uses are open. -/
lemma exists_open_of_mem_heads (hv : e.value ρ = .ok v) (hh : h ∈ e.heads) :
    ∃ u, h.2.value ρ = .ok u ∧ u.isKnown = false := by
  have hopen {d : Expr} (hd : d.heads ⊆ e.heads) : ¬ ∃ err, d.value ρ = .error err := by
    rw [exists_value_eq_error_iff]
    rintro ⟨h, hh, hknown⟩
    obtain ⟨err, herr⟩ := exists_value_eq_error_iff.2 ⟨h, hd hh, hknown⟩
    simp [hv] at herr
  rcases hu : h.2.value ρ with err | u
  · exact absurd ⟨err, hu⟩ (hopen (heads_subset hh))
  · refine ⟨u, rfl, Bool.eq_false_iff.2 fun hknown => ?_⟩
    exact hopen (List.Subset.refl _) (exists_value_eq_error_iff.2 ⟨h, hh, u, hu, hknown⟩)

/-- An expression that comes out known makes no such use. -/
lemma heads_eq_nil_of_isKnown (hv : e.value ρ = .ok v) (hknown : v.isKnown) : e.heads = [] := by
  induction e generalizing v with
  | lit | ident | index => rfl
  | binary op a b iha ihb =>
    simp only [value_binary, bind_eq_ok, pure_eq_ok, Except.ok.injEq] at hv
    obtain ⟨va, ha, vb, hb, rfl⟩ := hv
    obtain ⟨hka, hkb⟩ := Value.isKnown_of_isKnown_binary hknown
    rw [heads, iha ha hka, ihb hb hkb, List.append_nil]
  | unary op a ih =>
    rcases harith : op.isArithmetic with _ | _
    · simp [harith]
    · simp only [value_unary ρ harith, bind_eq_ok, pure_eq_ok, Except.ok.injEq] at hv
      obtain ⟨va, ha, rfl⟩ := hv
      rw [heads, if_pos harith, ih ha (Value.isKnown_of_isKnown_unary hknown)]
  | call f args _ _ =>
    simp only [value_call, bind_eq_ok] at hv
    obtain ⟨vf, -, ws, -, us, hcall, hv⟩ := hv
    simp [(Value.isKnown_of_call_eq_ok hcall).2 v hv] at hknown
  | paren a ih =>
    simp only [value_paren, bind_eq_ok, pure_eq_ok, Except.ok.injEq] at hv
    obtain ⟨va, ha, rfl⟩ := hv
    rw [heads, ih ha (by simpa using hknown)]
  | selector a x _ =>
    simp only [value_selector, bind_eq_ok] at hv
    obtain ⟨va, -, hv⟩ := hv
    simp [(Value.isKnown_of_member_eq_ok hv).2] at hknown

end Expr

end Staged
