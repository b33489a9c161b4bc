import Staged.Proofs.Eval.Folding

/-!
Operators and their operands. A tree is grouped when its operators bind as they would if it were
written out: an operand that binds less tightly than its place asks for stands in parentheses.
Evaluation keeps the parentheses that it finds and puts none around the values that it puts in for
identifiers. So what comes out is grouped just when the identifiers that stand as operands have
values that bind tightly enough.
-/

namespace Staged

/-- The levels at which binary operators bind. -/
def BinaryOp.precedence : BinaryOp → Nat
  | logOr => 1
  | logAnd => 2
  | eql | neq | lss | leq | gtr | geq => 3
  | add | sub | or | xor => 4
  | mul | quo | rem | shl | shr | and | andNot => 5

namespace Expr

/-- How tightly an expression binds as an operand. Only binary operators let their operands go. -/
def precedence : Expr → Nat
  | .binary op _ _ => op.precedence
  | .lit _ | .ident _ | .unary .. | .call .. | .paren _ | .selector .. | .index .. => 6

mutual

/-- Every operand binds as tightly as its place asks for: the left one of a binary operator at least
as tightly as the operator, the right one more tightly, and the operand of a unary operator, what
is called, selected from or indexed more tightly than all binary operators. -/
@[simp] def isGrouped : Expr → Bool
  | .lit _ | .ident _ => true
  | .binary op a b =>
    (op.precedence ≤ a.precedence && a.isGrouped) && (op.precedence < b.precedence && b.isGrouped)
  | .unary _ a => 6 ≤ a.precedence && a.isGrouped
  | .call f args => (6 ≤ f.precedence && f.isGrouped) && areGrouped args
  | .paren a => a.isGrouped
  | .selector a _ => 6 ≤ a.precedence && a.isGrouped
  | .index a i => (6 ≤ a.precedence && a.isGrouped) && i.isGrouped

@[simp] def areGrouped : List Expr → Bool
  | [] => true
  | e :: es => e.isGrouped && areGrouped es

end

mutual

/-- The identifiers that evaluation puts values in for, each with the precedence that its place asks
for, where the place of the expression asks for `least`. -/
def exposed (least : Nat) : Expr → List (Nat × Ident)
  | .ident x => [(least, x)]
  | .binary op a b => a.exposed op.precedence ++ b.exposed (op.precedence + 1)
  | .unary op a => if op.isArithmetic then a.exposed 6 else []
  | .call f args => f.exposed 6 ++ exposedAll args
  | .paren a => a.exposed 0
  | .selector a _ => a.exposed 6
  | .lit _ | .index .. => []

def exposedAll : List Expr → List (Nat × Ident)
  | [] => []
  | e :: es => e.exposed 0 ++ exposedAll es

end

/-- The value of each identifier binds as tightly as its place asks for. -/
def Fits (ρ : Env) (e : Expr) : Prop :=
  ∀ place ∈ e.exposed 0, place.1 ≤ (place.2.value ρ).expr.precedence

instance (ρ : Env) (e : Expr) : Decidable (e.Fits ρ) := List.decidableBAll _ _

/-- The expression is grouped and may stand where a place asks for `least`. -/
def StandsAt (least : Nat) (e : Expr) : Prop := e.isGrouped ∧ least ≤ e.precedence

section

variable {least : Nat} {a b i f : Expr} {args : List Expr}

@[simp] lemma precedence_lit {l : Literal} : (lit l).precedence = 6 := rfl

@[simp] lemma precedence_ident {x : Ident} : (ident x).precedence = 6 := rfl

@[simp] lemma precedence_binary {op : BinaryOp} : (binary op a b).precedence = op.precedence := rfl

@[simp] lemma precedence_unary {op : UnaryOp} : (unary op a).precedence = 6 := rfl

@[simp] lemma precedence_call : (call f args).precedence = 6 := rfl

@[simp] lemma precedence_paren : (paren a).precedence = 6 := rfl

@[simp] lemma precedence_selector {x : Ident} : (selector a x).precedence = 6 := rfl

lemma areGrouped_iff : areGrouped args ↔ ∀ e ∈ args, e.isGrouped := by
  induction args with
  | nil => simp
  | cons e es ih => simp [ih]

lemma exposedAll_eq_flatMap : exposedAll args = args.flatMap (exposed 0) := by
  induction args with
  | nil => simp [exposedAll]
  | cons e es ih => simp [exposedAll, ih]

lemma standsAt_zero : a.StandsAt 0 ↔ a.isGrouped := by simp [StandsAt]

lemma standsAt_lit {l : Literal} : (lit l).StandsAt least ↔ least ≤ 6 := by
  simp [StandsAt]

lemma standsAt_ident {x : Ident} : (ident x).StandsAt least ↔ least ≤ 6 := by
  simp [StandsAt]

lemma standsAt_binary {op : BinaryOp} : (binary op a b).StandsAt least ↔
    least ≤ op.precedence ∧ a.StandsAt op.precedence ∧ b.StandsAt (op.precedence + 1) := by
  simp only [StandsAt, isGrouped, precedence_binary, Bool.and_eq_true, decide_eq_true_eq,
    Nat.succ_le_iff]
  tauto

lemma standsAt_unary {op : UnaryOp} : (unary op a).StandsAt least ↔ least ≤ 6 ∧ a.StandsAt 6 := by
  simp only [StandsAt, isGrouped, precedence_unary, Bool.and_eq_true, decide_eq_true_eq]
  tauto

lemma standsAt_call : (call f args).StandsAt least ↔
    least ≤ 6 ∧ f.StandsAt 6 ∧ ∀ a ∈ args, a.StandsAt 0 := by
  simp only [StandsAt, isGrouped, precedence_call, areGrouped_iff, Bool.and_eq_true,
    decide_eq_true_eq, Nat.zero_le, and_true]
  tauto

lemma standsAt_paren : (paren a).StandsAt least ↔ least ≤ 6 ∧ a.StandsAt 0 := by
  simp only [StandsAt, isGrouped, precedence_paren, Nat.zero_le, and_true]
  tauto

lemma standsAt_selector {x : Ident} :
    (selector a x).StandsAt least ↔ least ≤ 6 ∧ a.StandsAt 6 := by
  simp only [StandsAt, isGrouped, precedence_selector, Bool.and_eq_true, decide_eq_true_eq]
  tauto

end

end Expr

lemma BinaryOp.precedence_lt (op : BinaryOp) : op.precedence < 6 := by cases op <;> decide

/-! ### What each operation puts together -/

namespace Value

variable {v w : Value} {least : Nat}

/-- A known value is written as a literal or as a name. -/
lemma standsAt_of_isKnown (hleast : least ≤ 6) (h : v.isKnown) : v.expr.StandsAt least := by
  rcases v with e | n | s | b
  · simp [isKnown] at h
  · exact Expr.standsAt_lit.2 hleast
  · exact Expr.standsAt_lit.2 hleast
  · cases b <;> exact Expr.standsAt_ident.2 hleast

lemma standsAt_binary {op : BinaryOp} (hleast : least ≤ op.precedence) :
    (binary op v w).expr.StandsAt least ↔
      v.expr.StandsAt op.precedence ∧ w.expr.StandsAt (op.precedence + 1) := by
  have hop : op.precedence < 6 := op.precedence_lt
  rcases hu : op.onValues? v w with _ | u
  · rw [binary, hu, Option.getD_none, expr.eq_1, Expr.standsAt_binary, and_iff_right hleast]
  · obtain ⟨hv, hw, hknown⟩ := BinaryOp.isKnown_of_onValues? hu
    rw [binary, hu, Option.getD_some]
    exact iff_of_true (standsAt_of_isKnown (by omega) hknown)
      ⟨standsAt_of_isKnown (by omega) hv, standsAt_of_isKnown hop hw⟩

lemma standsAt_unary {op : UnaryOp} (hleast : least ≤ 6) :
    (unary op v).expr.StandsAt least ↔ v.expr.StandsAt 6 := by
  rcases hu : op.onValue? v with _ | u
  · rw [unary, hu, Option.getD_none, expr.eq_1, Expr.standsAt_unary, and_iff_right hleast]
  · obtain ⟨hv, hknown⟩ := UnaryOp.isKnown_of_onValue? hu
    rw [unary, hu, Option.getD_some]
    exact iff_of_true (standsAt_of_isKnown hleast hknown) (standsAt_of_isKnown (Nat.le_refl 6) hv)

lemma standsAt_paren (hleast : least ≤ 6) :
    v.paren.expr.StandsAt least ↔ v.expr.StandsAt 0 := by
  rcases hv : v.isKnown with _ | _
  · cases v with
    | unknown e => exact Expr.standsAt_paren.trans (and_iff_right hleast)
    | int | string | bool => simp [isKnown] at hv
  · exact iff_of_true (standsAt_of_isKnown hleast (isKnown_paren.trans hv))
      (standsAt_of_isKnown (Nat.zero_le 6) hv)

lemma standsAt_member {x : String} (hleast : least ≤ 6) (h : v.member x = .ok w) :
    w.expr.StandsAt least ↔ v.expr.StandsAt 6 := by
  cases v with
  | unknown e =>
    obtain rfl := Except.ok.inj h
    exact Expr.standsAt_selector.trans (and_iff_right hleast)
  | int | string | bool => simp [member] at h

lemma standsAt_call {ws : List Value} (hleast : least ≤ 6) (h : v.call ws = .ok [w]) :
    w.expr.StandsAt least ↔ v.expr.StandsAt 6 ∧ ∀ u ∈ ws, u.expr.StandsAt 0 := by
  cases v with
  | unknown e =>
    obtain rfl : .unknown (.call e (ws.map expr)) = w := by simpa [call] using h
    rw [expr.eq_1, Expr.standsAt_call, and_iff_right hleast, List.forall_mem_map, expr.eq_1]
  | int | string | bool => simp [call] at h

end Value

/-! ### What evaluation puts together -/

namespace Expr

variable {ρ : Env} {e : Expr} {v : Value} {least : Nat}

lemma forall_standsAt_iff {es : List Expr} {vs : List Value} (hvs : es.mapM (value ρ) = .ok vs)
    (ih : ∀ e ∈ es, ∀ v, e.value ρ = .ok v → (v.expr.StandsAt 0 ↔
      ∀ place ∈ e.exposed 0, place.1 ≤ (place.2.value ρ).expr.precedence)) :
    (∀ v ∈ vs, v.expr.StandsAt 0) ↔
      ∀ place ∈ exposedAll es, place.1 ≤ (place.2.value ρ).expr.precedence := by
  rw [mapM_eq_ok] at hvs
  induction hvs with
  | nil => simp [exposedAll]
  | cons hv _ ihes =>
    obtain ⟨he, hes⟩ := List.forall_mem_cons.1 ih
    rw [List.forall_mem_cons, exposedAll, List.forall_mem_append, he _ hv, ihes hes]

/-- What is written into the residual as it stands is fit for its place. -/
lemma standsAt_verbatim (e : Expr) (he : e.isGrouped) (hleast : least ≤ e.precedence)
    (hnone : e.exposed least = []) : e.StandsAt least ↔
      ∀ place ∈ e.exposed least, place.1 ≤ (place.2.value ρ).expr.precedence := by
  simp [hnone, StandsAt, he, hleast]

/-- A grouped expression comes out fit for its place just when the identifiers in it have values
that are fit for theirs. -/
theorem standsAt_iff (hρ : ∀ x, (ρ x).expr.isGrouped) (he : e.isGrouped)
    (hleast : least ≤ e.precedence) (hv : e.value ρ = .ok v) :
    v.expr.StandsAt least ↔
      ∀ place ∈ e.exposed least, place.1 ≤ (place.2.value ρ).expr.precedence := by
  induction e generalizing least v with
  | lit l =>
    obtain rfl := Except.ok.inj hv
    rcases hl : l.value.isKnown with _ | _
    · rw [Literal.value_eq_of_not_isKnown (by simp [hl])]
      exact standsAt_verbatim (lit l) he hleast (by rw [exposed])
    · exact iff_of_true (Value.standsAt_of_isKnown hleast hl) (by simp [exposed])
  | ident x =>
    obtain rfl := Except.ok.inj hv
    have hx : (x.value ρ).expr.isGrouped := by
      unfold Ident.value
      split
      · exact (Value.standsAt_of_isKnown (Nat.zero_le 6) rfl).1
      · split
        · exact (Value.standsAt_of_isKnown (Nat.zero_le 6) rfl).1
        · exact hρ x.name
    simp [exposed, StandsAt, hx]
  | binary op a b iha ihb =>
    simp only [value_binary, bind_eq_ok, pure_eq_ok, Except.ok.injEq] at hv
    obtain ⟨va, ha, vb, hb, rfl⟩ := hv
    simp only [isGrouped, Bool.and_eq_true, decide_eq_true_eq] at he
    rw [Value.standsAt_binary hleast, exposed, List.forall_mem_append, iha he.1.2 he.1.1 ha,
      ihb he.2.2 he.2.1 hb]
  | unary op a ih =>
    rcases hop : op.isArithmetic with _ | _
    · rw [value_unary_verbatim ρ hop, Except.ok.injEq] at hv
      subst hv
      exact standsAt_verbatim (unary op a) he hleast (by simp [exposed, hop])
    · simp only [value_unary ρ hop, bind_eq_ok, pure_eq_ok, Except.ok.injEq] at hv
      obtain ⟨va, ha, rfl⟩ := hv
      simp only [isGrouped, Bool.and_eq_true, decide_eq_true_eq] at he
      rw [Value.standsAt_unary hleast, exposed, if_pos hop, ih he.2 he.1 ha]
  | call f args ihf ihargs =>
    simp only [isGrouped, Bool.and_eq_true, decide_eq_true_eq, areGrouped_iff] at he
    simp only [value_call, bind_eq_ok] at hv
    obtain ⟨vf, hf, vs, hvs, us, hcall, hv⟩ := hv
    obtain ⟨u, rfl⟩ := call_eq_ok hcall
    obtain rfl := Except.ok.inj hv
    rw [Value.standsAt_call hleast hcall, exposed, List.forall_mem_append, ihf he.1.2 he.1.1 hf,
      forall_standsAt_iff hvs fun a ha w hw => ihargs a ha (he.2 a ha) (Nat.zero_le _) hw]
  | paren a ih =>
    simp only [value_paren, bind_eq_ok, pure_eq_ok, Except.ok.injEq] at hv
    obtain ⟨va, ha, rfl⟩ := hv
    rw [isGrouped] at he
    rw [Value.standsAt_paren hleast, exposed, ih he (Nat.zero_le _) ha]
  | selector a x ih =>
    simp only [isGrouped, Bool.and_eq_true, decide_eq_true_eq] at he
    simp only [value_selector, bind_eq_ok] at hv
    obtain ⟨va, ha, hmember⟩ := hv
    rw [Value.standsAt_member hleast hmember, exposed, ih he.2 he.1 ha]
  | index a i =>
    obtain rfl := Except.ok.inj hv
    exact standsAt_verbatim (index a i) he hleast (by rw [exposed])

/-- Under grouped values a grouped expression comes out grouped just when it fits. -/
theorem isGrouped_expr_iff (hρ : ∀ x, (ρ x).expr.isGrouped) (he : e.isGrouped)
    (hv : e.value ρ = .ok v) : v.expr.isGrouped ↔ e.Fits ρ :=
  standsAt_zero.symm.trans (standsAt_iff hρ he (Nat.zero_le _) hv)

lemma forall_isGrouped_iff {es : List Expr} {vs : List Value} (hρ : ∀ x, (ρ x).expr.isGrouped)
    (hes : ∀ e ∈ es, e.isGrouped) (hvs : evalArgs ρ es = .ok vs) :
    (∀ v ∈ vs, v.expr.isGrouped) ↔ ∀ e ∈ es, e.Fits ρ := by
  have hplaces := forall_standsAt_iff ((evalArgs_eq ρ es).symm.trans hvs) fun e he v hv =>
    standsAt_iff hρ (hes e he) (Nat.zero_le _) hv
  simp only [standsAt_zero, exposedAll_eq_flatMap, List.forall_mem_flatMap] at hplaces
  exact hplaces

end Expr

end Staged
