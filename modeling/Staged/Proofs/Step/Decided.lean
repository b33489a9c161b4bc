import Staged.Proofs.Step.Resumption

/-!
Steps at which no choice stays open. A test that has come out true says nothing that the scope does
not say already, so only assignments change what the names stand for.
-/

namespace Staged

namespace Value

lemma eq_of_binary_eql {v w : Value} (h : binary .eql v w = .bool true) : v = w := by
  cases v <;> cases w <;>
    simp_all [binary, BinaryOp.onValues?, BinaryOp.onInts?, BinaryOp.onStrings?, BinaryOp.onBools?]

lemma eq_true_of_binary_logAnd {v w : Value} (h : binary .logAnd v w = .bool true) :
    v = .bool true ∧ w = .bool true := by
  cases v <;> cases w <;>
    simp_all [binary, BinaryOp.onValues?, BinaryOp.onInts?, BinaryOp.onStrings?, BinaryOp.onBools?]

end Value

/-- A test that is true says nothing new. -/
theorem Expr.lookup_refine {test : Expr} {s s' : Scope}
    (htrue : test.value s.lookup = .ok (.bool true)) (h : test.refine s = .ok s') :
    s'.lookup = s.lookup := by
  induction test, s using refine.induct generalizing s' with
  | case1 x e s hx =>
    simp only [refine, hx, if_true, Except.ok.injEq] at h
    rw [h]
  | case2 x e s hx =>
    simp only [refine, if_neg hx, bind_eq_ok, pure_eq_ok, Except.ok.injEq] at h
    obtain ⟨v, hv, rfl⟩ := h
    have hx : s.lookup x.name = v := by
      simp only [Bool.or_eq_true, not_or, Bool.not_eq_true, Ident.isBoolConstant,
        beq_eq_false_iff_ne] at hx
      simp only [value_binary, value_ident, hv, ok_bind, pure_eq_ok, Except.ok.injEq] at htrue
      simpa [Ident.value, hx.2.1, hx.2.2] using Value.eq_of_binary_eql htrue
    funext y
    by_cases hy : y = x.name <;> simp [hy, hx]
  | case3 a b s ihb iha =>
    simp only [refine, bind_eq_ok] at h
    obtain ⟨s₁, hs₁, h⟩ := h
    simp only [value_binary, bind_eq_ok, pure_eq_ok, Except.ok.injEq] at htrue
    obtain ⟨v, hv, w, hw, hand⟩ := htrue
    obtain ⟨rfl, rfl⟩ := Value.eq_true_of_binary_logAnd hand
    have hb : s₁.lookup = s.lookup := ihb hw hs₁
    rw [iha s₁ (by rw [hb]; exact hv) h, hb]
  | case4 test s h1 h2 =>
    rw [refine.eq_3 _ _ h1 h2, Except.ok.injEq] at h
    rw [h]

/-! ### Assignments -/

namespace Scope

/-- The value that an assignment gives to a name. -/
@[simp] def assigned : (targets : List Expr) → (values : List Value) → String → Option Value
  | [], _, _ => none
  | .ident x :: targets, values, y =>
    (assigned targets values.tail y).or
      (if x.isBlank = false ∧ x.name = y then some (values.head?.getD (.free y)) else none)
  | _ :: targets, values, y => assigned targets values.tail y

lemma lookup_assign (s : Scope) (targets : List Expr) (values : List Value) (y : String) :
    (s.assign targets values).lookup y = (assigned targets values y).getD (s.lookup y) := by
  induction targets generalizing s values with
  | nil => rfl
  | cons target targets ih =>
    cases target with
    | ident x =>
      simp only [assign, assigned]
      split
      · next hb => simp [ih, hb]
      · next hb =>
        rw [ih, lookup_bind]
        by_cases hy : y = x.name
        · cases assigned targets values.tail y <;> simp [hb, hy]
        · cases assigned targets values.tail y <;> simp [hb, hy, Ne.symm hy]
    | _ => exact ih s values.tail

/-- A name takes its value from one of the targets. -/
lemma exists_of_assigned_eq_some {targets : List Expr} {values : List Value} {y : String} {v : Value}
    (h : assigned targets values y = some v) : ∃ (i : Nat) (x : Ident),
      targets[i]? = some (.ident x) ∧ x.isBlank = false ∧ x.name = y ∧ v = values[i]?.getD (.free y) := by
  induction targets generalizing values with
  | nil => simp at h
  | cons target targets ih =>
    have hlater (h : assigned targets values.tail y = some v) :
        ∃ (i : Nat) (x : Ident), (target :: targets)[i]? = some (.ident x) ∧
          x.isBlank = false ∧ x.name = y ∧ v = values[i]?.getD (.free y) := by
      obtain ⟨i, x, hx, hb, hname, hv⟩ := ih h
      exact ⟨i + 1, x, hx, hb, hname, by simpa using hv⟩
    cases target with
    | ident x =>
      rw [assigned, Option.or_eq_some_iff] at h
      rcases h with h | ⟨-, h⟩
      · exact hlater h
      · split at h
        · next hx =>
          refine ⟨0, x, rfl, hx.1, hx.2, ?_⟩
          simpa [List.head?_eq_getElem?] using (Option.some.inj h).symm
        · simp at h
    | _ => exact hlater h

/-- Each target that is no blank gives its name a value. -/
lemma isSome_assigned {targets : List Expr} (values : List Value) {x : Ident}
    (h : .ident x ∈ targets) (hb : x.isBlank = false) :
    (assigned targets values x.name).isSome := by
  induction targets generalizing values with
  | nil => simp at h
  | cons target targets ih =>
    rcases List.mem_cons.1 h with rfl | hx
    · simp [hb]
    · cases target with
      | ident y => simp [ih values.tail hx]
      | _ => exact ih values.tail hx

end Scope

/-! ### Decided steps -/

/-- If there is a choice at the point, its test comes out true or false. -/
def Point.Decided (s : Scope) : Point → Prop
  | .branch (some test) _ _ => ∃ b, test.value s.lookup = .ok (.bool b)
  | .branch none _ _ | .evaluate .. | .assign .. | .ret _ | .unsupported _ => True

namespace FlowGraph

/-- A step at which no choice stays open. -/
def DecidedStep (g : FlowGraph) (a b : State) : Prop :=
  ∃ point next, g.get? a.point = some point ∧ point.Decided a.scope ∧
    point.step a.scope = .ok next ∧ b ∈ next

/-- A decided step follows an edge of the graph, and no name changes unless it is assigned to. -/
theorem DecidedStep.cases {g : FlowGraph} {a b : State} (h : g.DecidedStep a b) :
    ∃ point, g.get? a.point = some point ∧ b.point ∈ point.successors ∧
      ((∀ targets values define next, point ≠ .assign targets values define next) ∧
          b.scope.lookup = a.scope.lookup ∨
        ∃ targets values define next vs, point = .assign targets values define next ∧
          Expr.evalArgs a.scope.lookup values = .ok vs ∧ b.scope = a.scope.assign targets vs) := by
  obtain ⟨point, next, hp, hdecided, hstep, hb⟩ := h
  obtain ⟨hedge, hscope⟩ := Point.cases_of_mem_step hstep hb
  refine ⟨point, hp, hedge, ?_⟩
  obtain ⟨hpoint, hb⟩ | ⟨targets, values, define, q, vs, rfl, hvs, hb⟩ |
    ⟨test, ifTrue, ifFalse, v, rfl, hv, hfalse, hb⟩ := hscope
  · exact .inl ⟨hpoint, by rw [hb]⟩
  · exact .inr ⟨targets, values, define, q, vs, rfl, hvs, hb⟩
  · -- the test has come out true or false
    obtain ⟨c, hc⟩ := hdecided
    obtain rfl := Except.ok.inj (hv.symm.trans hc)
    obtain rfl : c = true := by simpa using hfalse
    exact .inl ⟨by simp, Expr.lookup_refine hv hb⟩

/-- A decided step at an assignment binds the targets to the values. -/
lemma DecidedStep.assign {g : FlowGraph} {a b : State} (h : g.DecidedStep a b)
    {targets values : List Expr} {define : Bool} {next : PointId}
    (hp : g.get? a.point = some (.assign targets values define next)) :
    ∃ vs, Expr.evalArgs a.scope.lookup values = .ok vs ∧ b.scope = a.scope.assign targets vs := by
  obtain ⟨point, hp', -, ⟨hpoint, -⟩ | ⟨_, _, _, _, vs, rfl, hvs, hb⟩⟩ := h.cases
  · obtain rfl := Option.some.inj (hp.symm.trans hp')
    exact absurd rfl (hpoint _ _ _ _)
  · obtain ⟨rfl, rfl, rfl, rfl⟩ := Point.assign.inj (Option.some.inj (hp.symm.trans hp'))
    exact ⟨vs, hvs, hb⟩

/-- The point `p` assigns to `y`, and `e?` is the value for it, if there is one. -/
def Assigns (g : FlowGraph) (p : PointId) (y : Ident) (e? : Option Expr) : Prop :=
  ∃ targets values define next, g.get? p = some (.assign targets values define next) ∧
    ∃ i : Nat, targets[i]? = some (.ident y) ∧ values[i]? = e?

/-- A decided step changes no name that it does not assign to. -/
lemma DecidedStep.lookup_eq {g : FlowGraph} {a b : State} (h : g.DecidedStep a b) {x : String}
    (hx : ∀ y e?, g.Assigns a.point y e? → y.isBlank = false → y.name ≠ x) :
    b.scope.lookup x = a.scope.lookup x := by
  obtain ⟨point, hp, -, ⟨-, hb⟩ | ⟨targets, values, define, next, vs, rfl, -, hb⟩⟩ := h.cases
  · rw [hb]
  · have hnone : Scope.assigned targets vs x = none := by
      refine Option.eq_none_iff_forall_ne_some.2 fun v hv => ?_
      obtain ⟨i, y, hi, hy, hname, -⟩ := Scope.exists_of_assigned_eq_some hv
      exact hx y _ ⟨targets, values, define, next, hp, i, hi, rfl⟩ hy hname
    rw [hb, Scope.lookup_assign, hnone, Option.getD_none]

/-- A name that is assigned to has the value for one of the targets with this name. -/
lemma DecidedStep.value_eq {g : FlowGraph} {a b : State} (h : g.DecidedStep a b) {y : Ident}
    {e? : Option Expr} (hy : g.Assigns a.point y e?) (hb : y.isBlank = false) :
    ∃ x d?, g.Assigns a.point x d? ∧ x.name = y.name ∧
      ∀ d ∈ d?, d.value a.scope.lookup = .ok (b.scope.lookup y.name) := by
  obtain ⟨targets, values, define, next, hp, j, hj, -⟩ := hy
  obtain ⟨vs, hvs, hscope⟩ := h.assign hp
  obtain ⟨v, hv⟩ :=
    Option.isSome_iff_exists.1 (Scope.isSome_assigned vs (List.mem_of_getElem? hj) hb)
  obtain ⟨i, x, hx, -, hname, hvi⟩ := Scope.exists_of_assigned_eq_some hv
  refine ⟨x, values[i]?, ⟨_, _, _, _, hp, i, hx, rfl⟩, hname, fun d hd => ?_⟩
  rw [Expr.evalArgs_eq] at hvs
  obtain ⟨w, hw, hdw⟩ := exists_getElem?_of_mapM_eq_ok hvs hd
  rw [hscope, Scope.lookup_assign, hv, Option.getD_some, hvi, hw, Option.getD_some, hdw]

end FlowGraph

end Staged
