import Staged.Proofs.Eval.Staging

/-!
Renaming in expressions and values. A renaming may give two names the same new name. Evaluation
looks at names only where it looks them up, so the value of a renamed expression is the renamed
value, where each name has the renamed value under its new name.
-/

namespace Staged

/-- The names with a meaning of their own: the truth values and the blank identifier. -/
def reserved : List String := ["true", "false", "_"]

/-- New names for variables. Names with a meaning of their own stay, and no other name becomes one
of them. -/
structure Renaming where
  map : String → String
  map_eq_iff : ∀ x y, y ∈ reserved → (map x = y ↔ x = y)

namespace Renaming

instance : CoeFun Renaming fun _ => String → String := ⟨map⟩

variable (f : Renaming) {x y : String}

lemma apply_eq_iff (hy : y ∈ reserved) : f x = y ↔ x = y := f.map_eq_iff x y hy

@[simp] lemma apply_eq_true_iff : f x = "true" ↔ x = "true" := f.apply_eq_iff (by decide)

@[simp] lemma apply_eq_false_iff : f x = "false" ↔ x = "false" := f.apply_eq_iff (by decide)

@[simp] lemma apply_eq_blank_iff : f x = "_" ↔ x = "_" := f.apply_eq_iff (by decide)

@[simp] lemma apply_true : f "true" = "true" := by simp

@[simp] lemma apply_false : f "false" = "false" := by simp

/-- Gives `y` the name `x`. -/
def merge (y x : String) (hy : y ∉ reserved) (hx : x ∉ reserved) : Renaming where
  map z := if z = y then x else z
  map_eq_iff z w hw := by
    by_cases hz : z = y
    · subst hz
      rw [if_pos rfl]
      constructor <;> rintro rfl
      · exact absurd hw hx
      · exact absurd hw hy
    · rw [if_neg hz]

variable (hy : y ∉ reserved) (hx : x ∉ reserved)

@[simp] lemma merge_self : merge y x hy hx y = x := if_pos rfl

lemma merge_of_ne {z : String} (h : z ≠ y) : merge y x hy hx z = z := if_neg h

end Renaming

namespace Ident

def rename (f : Renaming) (x : Ident) : Ident := { x with name := f x.name }

variable (f : Renaming) (x : Ident)

@[simp] lemma name_rename : (x.rename f).name = f x.name := rfl

@[simp] lemma isBlank_rename : (x.rename f).isBlank = x.isBlank := by
  rw [Bool.eq_iff_iff]
  simp [isBlank]

@[simp] lemma isBoolConstant_rename : (x.rename f).isBoolConstant = x.isBoolConstant := by
  rw [Bool.eq_iff_iff]
  simp [isBoolConstant]

end Ident

namespace Expr

mutual

/-- Renames the variables. The name of a member is none. -/
@[simp] def rename (f : Renaming) : Expr → Expr
  | .lit l => .lit l
  | .ident x => .ident (x.rename f)
  | .binary op a b => .binary op (a.rename f) (b.rename f)
  | .unary op a => .unary op (a.rename f)
  | .call g args => .call (g.rename f) (renameAll f args)
  | .paren a => .paren (a.rename f)
  | .selector a x => .selector (a.rename f) x
  | .index a i => .index (a.rename f) (i.rename f)

def renameAll (f : Renaming) : List Expr → List Expr
  | [] => []
  | e :: es => e.rename f :: renameAll f es

end

variable (f : Renaming)

@[simp] lemma renameAll_eq_map (es : List Expr) : renameAll f es = es.map (rename f) := by
  induction es with
  | nil => rfl
  | cons e es ih => simp [renameAll, ih]

@[simp] lemma rename_name (x : String) : (name x).rename f = name (f x) := rfl

lemma rename_eq_ident {f : Renaming} {e : Expr} {x : Ident} (h : e.rename f = ident x) :
    ∃ y, e = ident y := by
  cases e <;> simp at h ⊢

lemma rename_eq_binary {f : Renaming} {e a b : Expr} {op : BinaryOp}
    (h : e.rename f = binary op a b) : ∃ a' b', e = binary op a' b' ∧ a'.rename f = a := by
  cases e <;> simp_all [rename]

/-- Only the variables in an expression matter. -/
lemma rename_of_forall {e : Expr} (h : ∀ x ∈ e.idents, f x.name = x.name) : e.rename f = e := by
  induction e with
  | lit => rfl
  | ident x =>
    have hx : f x.name = x.name := by
      rcases hx : x.isBoolConstant with _ | _
      · exact h x (by simp [idents, hx])
      · have hx : x.name = "true" ∨ x.name = "false" := by simpa [Ident.isBoolConstant] using hx
        rcases hx with hx | hx <;> simp [hx]
    rw [rename, Ident.rename, hx]
  | binary op a b iha ihb =>
    simp only [idents, List.mem_append] at h
    rw [rename, iha fun x hx => h x (.inl hx), ihb fun x hx => h x (.inr hx)]
  | unary op a ih => rw [rename, ih h]
  | call g args ihg ihargs =>
    simp only [idents, List.mem_append, identsAll_eq_flatMap, List.mem_flatMap] at h
    have hargs : args.map (rename f) = args.map id :=
      List.map_congr_left fun a ha => ihargs a ha fun x hx => h x (.inr ⟨a, ha, hx⟩)
    rw [rename, ihg fun x hx => h x (.inl hx), renameAll_eq_map, hargs, List.map_id]
  | paren a ih => rw [rename, ih h]
  | selector a x ih => rw [rename, ih h]
  | index a i iha ihi =>
    simp only [idents, List.mem_append] at h
    rw [rename, iha fun x hx => h x (.inl hx), ihi fun x hx => h x (.inr hx)]

end Expr

namespace Value

/-- Renames the variables that a value is left in terms of. -/
def rename (f : Renaming) : Value → Value
  | unknown e => .unknown (e.rename f)
  | int n => .int n
  | string s => .string s
  | bool b => .bool b

variable (f : Renaming)

@[simp] lemma rename_unknown (e : Expr) : (unknown e).rename f = unknown (e.rename f) := rfl

@[simp] lemma rename_int (n : Int64) : (int n).rename f = int n := rfl

@[simp] lemma expr_rename (v : Value) : (v.rename f).expr = v.expr.rename f := by
  cases v with
  | bool b => cases b <;> simp [rename, expr]
  | _ => rfl

@[simp] lemma rename_free (x : String) : (free x).rename f = free (f x) := rfl

@[simp] lemma rename_literal (l : Literal) : l.value.rename f = l.value := by
  unfold Literal.value
  split
  · rfl
  · split <;> rfl
  all_goals rfl

lemma rename_of_isKnown {v : Value} (h : v.isKnown) : v.rename f = v := by
  cases v <;> simp_all [rename, isKnown]

lemma rename_of_forall {f : Renaming} {v : Value} (h : ∀ x ∈ v.expr.idents, f x.name = x.name) :
    v.rename f = v := by
  cases v with
  | unknown e => exact congrArg unknown (Expr.rename_of_forall f h)
  | int | string | bool => rfl

/-! Known values have no names in them, and the others are put together in the same way. -/

lemma binary_rename (op : BinaryOp) (v w : Value) :
    binary op (v.rename f) (w.rename f) = (binary op v w).rename f := by
  have hfold : op.onValues? (v.rename f) (w.rename f) = op.onValues? v w := by
    cases v <;> cases w <;> rfl
  rcases h : op.onValues? v w with _ | u
  · simp [binary, hfold, h]
  · simp [binary, hfold, h, rename_of_isKnown f (BinaryOp.isKnown_of_onValues? h).2.2]

lemma unary_rename (op : UnaryOp) (v : Value) : unary op (v.rename f) = (unary op v).rename f := by
  have hfold : op.onValue? (v.rename f) = op.onValue? v := by
    cases v <;> cases op <;> rfl
  rcases h : op.onValue? v with _ | u
  · simp [unary, hfold, h]
  · simp [unary, hfold, h, rename_of_isKnown f (UnaryOp.isKnown_of_onValue? h).2]

lemma paren_rename (v : Value) : (v.rename f).paren = v.paren.rename f := by
  cases v <;> rfl

lemma member_rename (v : Value) (x : String) :
    (v.rename f).member x = rename f <$> v.member x := by
  cases v <;> rfl

lemma call_rename (v : Value) (ws : List Value) :
    (v.rename f).call (ws.map (rename f)) = List.map (rename f) <$> v.call ws := by
  cases v with
  | unknown e =>
    simp only [rename_unknown, call, List.map_map, Function.comp_def, expr_rename, Except.map_ok,
      List.map_singleton, Expr.rename, Expr.renameAll_eq_map]
  | int | string | bool => rfl

end Value

/-! ### Evaluation -/

lemma single_rename (f : Renaming) (vs : List Value) :
    single (vs.map (Value.rename f)) = Value.rename f <$> single vs := by
  cases vs <;> rfl

namespace Expr

variable {f : Renaming} {ρ σ : Env}

lemma mapM_value_rename {es : List Expr}
    (h : ∀ e ∈ es, (e.rename f).value ρ = Value.rename f <$> e.value σ) :
    (es.map (rename f)).mapM (value ρ) = List.map (Value.rename f) <$> es.mapM (value σ) := by
  induction es with
  | nil => rfl
  | cons e es ih =>
    obtain ⟨he, hes⟩ := List.forall_mem_cons.1 h
    simp only [List.map_cons, List.mapM_cons, he, ih hes, bind_map_left, map_bind, map_pure]

/-- **Evaluation under other names.** The value of a renamed expression is the renamed value, if
each variable in the expression has the renamed value under its new name. -/
theorem value_rename {e : Expr}
    (h : ∀ x ∈ e.idents, ρ (f x.name) = (σ x.name).rename f) :
    (e.rename f).value ρ = Value.rename f <$> e.value σ := by
  induction e with
  | lit l => simp [value_lit]
  | ident x =>
    rw [rename, value_ident, value_ident, Except.map_ok]
    rcases hx : x.isBoolConstant with _ | _
    · have hvalue := h x (by simp [idents, hx])
      simp only [Ident.isBoolConstant, Bool.or_eq_false_iff, beq_eq_false_iff_ne] at hx
      simp [Ident.value, hx, hvalue]
    · have hx : x.name = "true" ∨ x.name = "false" := by simpa [Ident.isBoolConstant] using hx
      rcases hx with hx | hx <;> simp [Ident.value, hx, Value.rename]
  | binary op a b iha ihb =>
    simp only [idents, List.mem_append] at h
    simp only [rename, value_binary, iha fun x hx => h x (.inl hx), ihb fun x hx => h x (.inr hx),
      bind_map_left, map_bind, map_pure, Value.binary_rename]
  | unary op a ih =>
    rcases hop : op.isArithmetic with _ | _
    · simp only [rename, value_unary_verbatim _ hop, Except.map_ok, Value.rename]
    · simp only [rename, value_unary _ hop, ih h, bind_map_left, map_bind, map_pure,
        Value.unary_rename]
  | call g args ihg ihargs =>
    simp only [idents, List.mem_append, identsAll_eq_flatMap, List.mem_flatMap] at h
    have hargs := mapM_value_rename fun a ha => ihargs a ha fun x hx => h x (.inr ⟨a, ha, hx⟩)
    simp only [rename, renameAll_eq_map, value_call, ihg fun x hx => h x (.inl hx), hargs,
      bind_map_left, map_bind, Value.call_rename, single_rename]
  | paren a ih =>
    simp only [rename, value_paren, ih h, bind_map_left, map_bind, map_pure, Value.paren_rename]
  | selector a x ih =>
    simp only [rename, value_selector, ih h, bind_map_left, map_bind, Value.member_rename]
  | index a i => rfl

lemma evalArgs_rename {es : List Expr}
    (h : ∀ e ∈ es, ∀ x ∈ e.idents, ρ (f x.name) = (σ x.name).rename f) :
    evalArgs ρ (es.map (rename f)) = List.map (Value.rename f) <$> evalArgs σ es := by
  rw [evalArgs_eq, evalArgs_eq]
  exact mapM_value_rename fun e he => value_rename (h e he)

end Expr

end Staged
