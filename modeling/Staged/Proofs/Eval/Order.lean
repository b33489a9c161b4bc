import Staged.Proofs.Eval.Failure

/-!
The order of evaluation. Evaluation goes through an expression from left to right and is done with
the parts of an expression before it is done with the expression itself. It stops at the first call
of a known value and at the first member taken of one, and nowhere else.
-/

namespace Staged

namespace Expr

/-- Evaluating the first expression evaluates the second one, unless it stops before. What is
indexed, and the operand of an operator that names storage or waits for a message, is not
evaluated. -/
inductive Evaluates : Expr → Expr → Prop where
  | self (e : Expr) : Evaluates e e
  | left {op a b d} (h : Evaluates a d) : Evaluates (.binary op a b) d
  | right {op a b d} (h : Evaluates b d) : Evaluates (.binary op a b) d
  | operand {op a d} (harith : op.isArithmetic) (h : Evaluates a d) : Evaluates (.unary op a) d
  | callee {f args d} (h : Evaluates f d) : Evaluates (.call f args) d
  | argument {f args a d} (ha : a ∈ args) (h : Evaluates a d) : Evaluates (.call f args) d
  | inner {a d} (h : Evaluates a d) : Evaluates (.paren a) d
  | receiver {a x d} (h : Evaluates a d) : Evaluates (.selector a x) d

/-- A known value is put to a use that only an object or a function allows. -/
inductive Misuses (ρ : Env) : Expr → Misuse → Value → Prop where
  | call {f args v} (hv : f.value ρ = .ok v) (hknown : v.isKnown) :
      Misuses ρ (.call f args) .call v
  | memberAccess {a x v} (hv : a.value ρ = .ok v) (hknown : v.isKnown) :
      Misuses ρ (.selector a x) .memberAccess v

mutual

/-- What evaluation evaluates, in the order in which it is done with it. -/
@[simp] def visits : Expr → List Expr
  | .lit l => [.lit l]
  | .ident x => [.ident x]
  | .binary op a b => a.visits ++ b.visits ++ [.binary op a b]
  | .unary op a => (if op.isArithmetic then a.visits else []) ++ [.unary op a]
  | .call f args => f.visits ++ visitsAll args ++ [.call f args]
  | .paren a => a.visits ++ [.paren a]
  | .selector a x => a.visits ++ [.selector a x]
  | .index a i => [.index a i]

@[simp] def visitsAll : List Expr → List Expr
  | [] => []
  | e :: es => e.visits ++ visitsAll es

end

lemma mem_visitsAll {es : List Expr} {d : Expr} : d ∈ visitsAll es ↔ ∃ e ∈ es, d ∈ e.visits := by
  induction es with
  | nil => simp
  | cons e es ih => simp [ih]

lemma evaluates_of_mem_visits {e d : Expr} (h : d ∈ e.visits) : e.Evaluates d := by
  induction e with
  | lit | ident | index =>
    obtain rfl := List.mem_singleton.1 h
    exact .self _
  | binary op a b iha ihb =>
    simp only [visits, List.mem_append, List.mem_singleton] at h
    obtain (h | h) | rfl := h
    · exact .left (iha h)
    · exact .right (ihb h)
    · exact .self _
  | unary op a ih =>
    rw [visits, List.mem_append, List.mem_singleton] at h
    rcases h with h | rfl
    · rcases harith : op.isArithmetic with _ | _
      · simp [harith] at h
      · exact .operand harith (ih (by simpa [harith] using h))
    · exact .self _
  | call f args ihf ihargs =>
    simp only [visits, List.mem_append, List.mem_singleton, mem_visitsAll] at h
    obtain (h | ⟨a, ha, h⟩) | rfl := h
    · exact .callee (ihf h)
    · exact .argument ha (ihargs a ha h)
    · exact .self _
  | paren a ih =>
    simp only [visits, List.mem_append, List.mem_singleton] at h
    rcases h with h | rfl
    · exact .inner (ih h)
    · exact .self _
  | selector a x ih =>
    simp only [visits, List.mem_append, List.mem_singleton] at h
    rcases h with h | rfl
    · exact .receiver (ih h)
    · exact .self _

lemma mem_visits_self (e : Expr) : e ∈ e.visits := by
  cases e <;> simp

lemma Evaluates.mem_visits {e d : Expr} (h : e.Evaluates d) : d ∈ e.visits := by
  induction h with
  | self e => exact mem_visits_self e
  | left _ ih | right _ ih | callee _ ih | inner _ ih | receiver _ ih => simp [ih]
  | operand harith _ ih => simp [harith, ih]
  | argument ha _ ih =>
    have h := mem_visitsAll.2 ⟨_, ha, ih⟩
    simp [h]

/-- The use that an expression makes of a part, if it calls it or takes a member of it. -/
def use? : Expr → Option (Misuse × Expr)
  | .call f _ => some (.call, f)
  | .selector a _ => some (.memberAccess, a)
  | .lit _ | .ident _ | .binary .. | .unary .. | .paren _ | .index .. => none

lemma filterMap_use?_visitsAll {es : List Expr}
    (h : ∀ e ∈ es, e.visits.filterMap use? = e.heads) :
    (visitsAll es).filterMap use? = headsAll es := by
  induction es with
  | nil => rfl
  | cons e es ih =>
    obtain ⟨he, hes⟩ := List.forall_mem_cons.1 h
    rw [visitsAll, headsAll, List.filterMap_append, he, ih hes]

/-- The uses come in the order of evaluation. -/
lemma filterMap_use?_visits (e : Expr) : e.visits.filterMap use? = e.heads := by
  induction e with
  | lit | ident | index => rfl
  | binary op a b iha ihb => simp [iha, ihb, use?]
  | unary op a ih =>
    rcases harith : op.isArithmetic with _ | _ <;> simp [harith, ih, use?]
  | call f args ihf ihargs => simp [ihf, filterMap_use?_visitsAll ihargs, use?]
  | paren a ih => simp [ih, use?]
  | selector a x ih => simp [ih, use?]

variable {ρ : Env} {d : Expr}

/-- The error of a call or a selector whose operand comes out known. -/
def misuseAt? (ρ : Env) (d : Expr) : Option EvalError := d.use?.bind (misuse? ρ)

lemma misuseAt?_eq_some {err : EvalError} :
    misuseAt? ρ d = some err ↔ ∃ m v, d.Misuses ρ m v ∧ err = .invalidOperation m v := by
  constructor
  · intro h
    obtain ⟨use, huse, h⟩ := Option.bind_eq_some_iff.1 h
    obtain ⟨v, hv, hknown, rfl⟩ := misuse?_eq_some.1 h
    refine ⟨use.1, v, ?_, rfl⟩
    cases d with
    | call f args =>
      obtain rfl := Option.some.inj huse
      exact .call hv hknown
    | selector a x =>
      obtain rfl := Option.some.inj huse
      exact .memberAccess hv hknown
    | lit | ident | binary | unary | paren | index => simp [use?] at huse
  · rintro ⟨m, v, h, rfl⟩
    cases h with
    | call hv hknown | memberAccess hv hknown => exact misuse?_eq_some.2 ⟨v, hv, hknown, rfl⟩

lemma misuseAt?_eq_none : misuseAt? ρ d = none ↔ ∀ m v, ¬ d.Misuses ρ m v := by
  rw [Option.eq_none_iff_forall_ne_some]
  simp only [ne_eq, misuseAt?_eq_some]
  grind

lemma failure?_value_eq (ρ : Env) (e : Expr) :
    failure? (e.value ρ) = e.visits.findSome? (misuseAt? ρ) := by
  rw [failure?_value, ← filterMap_use?_visits, ← List.head?_filterMap, List.filterMap_filterMap,
    List.head?_filterMap]
  rfl

lemma eval_eq_error_iff_value {e : Expr} {err : EvalError} :
    e.eval ρ = .error err ↔ failure? (e.value ρ) = some err := by
  rw [eval_eq]
  cases e.value ρ <;> simp

/-- **When evaluation fails.** Evaluation fails with the misuse that comes first in the order of
evaluation, and the message tells what was attempted on which value. So it fails exactly if
something that it evaluates is misused, and otherwise it yields exactly one value. -/
theorem eval_eq_error_iff (ρ : Env) (e : Expr) :
    (∀ err, e.eval ρ = .error err ↔ ∃ before d after m v, e.visits = before ++ d :: after ∧
        (∀ c ∈ before, ∀ m v, ¬ c.Misuses ρ m v) ∧ d.Misuses ρ m v ∧
        err = .invalidOperation m v ∧
        err.message = "Invalid operation: " ++ m.text ++ " on known value " ++ v.display) ∧
      (∀ d, d ∈ e.visits ↔ e.Evaluates d) ∧
      ((∃ err, e.eval ρ = .error err) ↔ ∃ d m v, e.Evaluates d ∧ d.Misuses ρ m v) ∧
      ((∃ v, e.eval ρ = .ok [v]) ↔ ¬ ∃ d m v, e.Evaluates d ∧ d.Misuses ρ m v) := by
  have hvisits (d : Expr) : d ∈ e.visits ↔ e.Evaluates d :=
    ⟨evaluates_of_mem_visits, Evaluates.mem_visits⟩
  have hfirst (err : EvalError) :
      e.eval ρ = .error err ↔ e.visits.findSome? (misuseAt? ρ) = some err := by
    rw [eval_eq_error_iff_value, failure?_value_eq]
  have hfails : (∃ err, e.eval ρ = .error err) ↔ ∃ d m v, e.Evaluates d ∧ d.Misuses ρ m v := by
    simp only [hfirst]
    rw [← Option.isSome_iff_exists, List.findSome?_isSome_iff]
    simp only [Option.isSome_iff_exists, misuseAt?_eq_some, hvisits]
    grind
  refine ⟨fun err => ?_, hvisits, hfails, ?_⟩
  · rw [hfirst, List.findSome?_eq_some_iff]
    simp only [misuseAt?_eq_some, misuseAt?_eq_none]
    constructor
    · rintro ⟨before, d, after, heq, ⟨m, v, hd, rfl⟩, hbefore⟩
      exact ⟨before, d, after, m, v, heq, hbefore, hd, rfl, rfl⟩
    · rintro ⟨before, d, after, m, v, heq, hbefore, hd, rfl, -⟩
      exact ⟨before, d, after, heq, ⟨m, v, hd, rfl⟩, hbefore⟩
  · rw [← hfails]
    rcases heval : e.eval ρ with err | vs
    · simp
    · obtain ⟨v, rfl⟩ := eq_singleton_of_eval ρ heval
      simp

/-- In `g(x.m, 3())` with `x` known, taking the member comes before the call of 3, which stands
further to the right, and before the call of `g`. -/
theorem eval_eq_error_iff_argument :
    let ρ := (Scope.ofList [("x", .int 7)]).lookup
    let e := Expr.call (.name "g")
      [.selector (.name "x") { name := "m" }, .call (Value.int 3).expr []]
    e.eval ρ = .error (.invalidOperation .memberAccess (.int 7)) ∧
      (EvalError.invalidOperation .memberAccess (.int 7)).message =
        "Invalid operation: member access on known value 7" := by
  intro ρ e
  refine ⟨?_, by decide⟩
  have hmisuse : (Expr.selector (.name "x") { name := "m" }).Misuses ρ .memberAccess (.int 7) :=
    .memberAccess rfl rfl
  refine ((eval_eq_error_iff ρ e).1 _).2
    ⟨[.name "g", .name "x"], _, _, _, _, rfl, ?_, hmisuse, rfl, rfl⟩
  intro c hc m v h
  simp only [List.mem_cons, List.not_mem_nil, or_false] at hc
  rcases hc with rfl | rfl <;> cases h

end Expr

end Staged
