import Staged.Proofs.Eval.Failure
import Staged.Step

/-!
When the step at a branch fails. Its test is evaluated first, and then the equations of the test
bind their names one after the other, the last one first. So the right side of an equation is
evaluated once more, with the equations after it bound already, and what was open in the test may
have come to be known: only then, or where the test fails, does the step fail.
-/

namespace Staged

/-- Binds a name to the value of an expression. -/
def Scope.equate (s : Scope) (equation : String × Expr) : Except EvalError Scope := do
  return s.bind equation.1 (← equation.2.value s.lookup)

namespace Expr

variable {test : Expr} {s : Scope} {x : String} {e : Expr}

/-- The equations that a true test implies, in the order in which they bind. -/
def equations : Expr → List (String × Expr)
  | .binary .eql (.ident x) e => if x.isBlank || x.isBoolConstant then [] else [(x.name, e)]
  | .binary .logAnd a b => b.equations ++ a.equations
  | _ => []

lemma refine_eq_foldlM (test : Expr) (s : Scope) :
    test.refine s = test.equations.foldlM Scope.equate s := by
  induction test, s using refine.induct with
  | case1 x e s hx => simp [refine, equations, hx]
  | case2 x e s hx => simp [refine, equations, hx, Scope.equate]
  | case3 a b s ihb iha =>
    rw [refine, equations, List.foldlM_append, ihb]
    rcases b.equations.foldlM Scope.equate s with err | s₁
    · rfl
    · exact iha s₁
  | case4 test s h1 h2 =>
    rw [refine.eq_3 _ _ h1 h2, equations.eq_3 _ h1 h2, List.foldlM_nil, pure_eq_ok]

/-- Evaluating a test evaluates the right sides of its equations. -/
lemma exists_value_of_mem_equations {ρ : Env} {v : Value} (hv : test.value ρ = .ok v)
    (he : (x, e) ∈ test.equations) :
    ∃ w, e.value ρ = .ok w ∧ (v.isKnown → w.isKnown) := by
  induction test using equations.induct generalizing v with
  | case1 y d hy => simp [equations, hy] at he
  | case2 y d hy =>
    simp only [equations, if_neg hy, List.mem_singleton, Prod.mk.injEq] at he
    obtain ⟨-, rfl⟩ := he
    simp only [value_binary, value_ident, ok_bind, bind_eq_ok, pure_eq_ok, Except.ok.injEq] at hv
    obtain ⟨w, hw, rfl⟩ := hv
    exact ⟨w, hw, fun h => (Value.isKnown_of_isKnown_binary h).2⟩
  | case3 a b ihb iha =>
    simp only [value_binary, bind_eq_ok, pure_eq_ok, Except.ok.injEq] at hv
    obtain ⟨va, ha, vb, hb, rfl⟩ := hv
    rw [equations, List.mem_append] at he
    rcases he with he | he
    · obtain ⟨w, hw, hknown⟩ := ihb hb he
      exact ⟨w, hw, fun h => hknown (Value.isKnown_of_isKnown_binary h).2⟩
    · obtain ⟨w, hw, hknown⟩ := iha ha he
      exact ⟨w, hw, fun h => hknown (Value.isKnown_of_isKnown_binary h).1⟩
  | case4 test h1 h2 => simp [equations.eq_3 _ h1 h2] at he

/-- An equation calls or takes a member of something that is open in `s`, and known by the turn of
the equation, through the equations that bind before it. -/
def Disturbed (test : Expr) (s : Scope) : Prop :=
  ∃ before x e after t, test.equations = before ++ (x, e) :: after ∧
    before.foldlM Scope.equate s = .ok t ∧
    ∃ h ∈ e.heads, (∃ u, h.2.value s.lookup = .ok u ∧ u.isKnown = false) ∧
      ∃ v, h.2.value t.lookup = .ok v ∧ v.isKnown

lemma Disturbed.refine_fails (h : test.Disturbed s) : ∃ err, test.refine s = .error err := by
  obtain ⟨before, x, e, after, t, heq, hbefore, hd, hmem, -, hknown⟩ := h
  obtain ⟨err, herr⟩ := exists_value_eq_error_iff.2 ⟨hd, hmem, hknown⟩
  refine ⟨err, ?_⟩
  rw [refine_eq_foldlM]
  refine foldlM_eq_error.2 ⟨before, (x, e), after, t, heq, hbefore, ?_⟩
  simp [Scope.equate, herr]

/-- Where the test has a value, refining fails for no other reason. -/
lemma disturbed_of_refine_fails {v : Value} {err : EvalError} (hv : test.value s.lookup = .ok v)
    (h : test.refine s = .error err) : test.Disturbed s := by
  rw [refine_eq_foldlM] at h
  obtain ⟨before, ⟨x, e⟩, after, t, heq, hbefore, hfail⟩ := foldlM_eq_error.1 h
  have herr : ∃ err, e.value t.lookup = .error err := by
    rcases he : e.value t.lookup with err | w
    · exact ⟨err, rfl⟩
    · simp [Scope.equate, he] at hfail
  obtain ⟨hd, hmem, hknown⟩ := exists_value_eq_error_iff.1 herr
  have he : (x, e) ∈ test.equations := by simp [heq]
  obtain ⟨w, hw, -⟩ := exists_value_of_mem_equations hv he
  exact ⟨before, x, e, after, t, heq, hbefore, hd, hmem, exists_open_of_mem_heads hw hmem, hknown⟩

/-- A test that comes out known calls nothing and takes no members. -/
lemma not_disturbed_of_isKnown {v : Value} (hv : test.value s.lookup = .ok v) (hknown : v.isKnown) :
    ¬ test.Disturbed s := by
  rintro ⟨before, x, e, after, t, heq, -, hd, hmem, -⟩
  have he : (x, e) ∈ test.equations := by simp [heq]
  obtain ⟨w, hw, hwknown⟩ := exists_value_of_mem_equations hv he
  simp [heads_eq_nil_of_isKnown hw (hwknown hknown)] at hmem

/-- It takes two equations to disturb a test. -/
lemma not_disturbed_of_length_le (h : test.equations.length ≤ 1) : ¬ test.Disturbed s := by
  rintro ⟨before, x, e, after, t, heq, hbefore, hd, -, ⟨u, hu, hopen⟩, v, hv, hknown⟩
  have hnil : before = [] := by
    rw [heq, List.length_append, List.length_cons] at h
    exact List.length_eq_zero_iff.1 (by omega)
  subst hnil
  obtain rfl := Except.ok.inj hbefore
  obtain rfl := Except.ok.inj (hu.symm.trans hv)
  simp [hopen] at hknown

end Expr

lemma Point.step_branch_fails_iff {test : Expr} {s : Scope} {ifTrue ifFalse : PointId} :
    (∃ err, (Point.branch (some test) ifTrue ifFalse).step s = .error err) ↔
      (∃ err, test.value s.lookup = .error err) ∨ test.Disturbed s := by
  rcases hv : test.value s.lookup with err | v
  · simp [step, hv]
  · rcases hr : test.refine s with err | t
    · have hdisturbed := Expr.disturbed_of_refine_fails hv hr
      refine iff_of_true ⟨err, ?_⟩ (.inr hdisturbed)
      -- the test is not known to be false, so the step refines
      have hopen : v.isKnown = false :=
        Bool.eq_false_iff.2 fun hk => Expr.not_disturbed_of_isKnown hv hk hdisturbed
      cases v with
      | unknown e => simp [step, hv, hr]
      | int | string | bool => simp [Value.isKnown] at hopen
    · have hnot : ¬ test.Disturbed s := fun h => by
        obtain ⟨err, herr⟩ := h.refine_fails
        simp [hr] at herr
      refine iff_of_false ?_ (by simp [hnot])
      rintro ⟨err, herr⟩
      simp only [step, hv, hr, ok_bind] at herr
      split at herr <;> simp at herr

namespace Expr

/-- **When the step at a branch fails.** Where a test has a value, it can be refined unless that
disturbs the test, which never happens to a test that comes out known or has a single equation. The
step at a branch fails exactly if its test fails or is disturbed. -/
theorem step_fails_iff_disturbed (test : Expr) (s : Scope) :
    (∀ v, test.value s.lookup = .ok v → ((∃ t, test.refine s = .ok t) ↔ ¬ test.Disturbed s)) ∧
    (∀ v, test.value s.lookup = .ok v → v.isKnown ∨ test.equations.length ≤ 1 →
      ¬ test.Disturbed s) ∧
    ∀ (g : FlowGraph) (p ifTrue ifFalse : PointId),
      g.get? p = some (.branch (some test) ifTrue ifFalse) →
      ((∃ err, g.step ⟨p, s⟩ = .error err) ↔
        (∃ err, test.value s.lookup = .error err) ∨ test.Disturbed s) := by
  refine ⟨fun v hv => ⟨?_, fun h => ?_⟩, fun v hv h => ?_, fun g p ifTrue ifFalse hp => ?_⟩
  · rintro ⟨t, ht⟩ hdisturbed
    obtain ⟨err, herr⟩ := hdisturbed.refine_fails
    simp [ht] at herr
  · rcases hr : test.refine s with err | t
    · exact absurd (disturbed_of_refine_fails hv hr) h
    · exact ⟨t, rfl⟩
  · rcases h with hknown | hlength
    · exact not_disturbed_of_isKnown hv hknown
    · exact not_disturbed_of_length_le hlength
  · rw [FlowGraph.step, hp]
    exact Point.step_branch_fails_iff

/-- In `d == 5 && label == d.text()` nothing is known at first. The second equation binds before `d`
becomes 5, and so the step leads to both sides; the second equation alone is never disturbed. -/
theorem step_fails_iff_disturbed_in_order :
    let equation := Expr.binary .eql (.name "label")
      (.call (.selector (.name "d") { name := "text" }) [])
    let test := Expr.binary .logAnd (.binary .eql (.name "d") (Value.int 5).expr) equation
    let g : FlowGraph := ⟨#[.ret [], .branch (some test) 0 0]⟩
    ¬ equation.Disturbed .empty ∧ (∃ v, test.value Scope.empty.lookup = .ok v) ∧
      ¬ test.Disturbed .empty ∧ ¬ ∃ err, g.step ⟨1, .empty⟩ = .error err := by
  intro equation test g
  have hequation := (step_fails_iff_disturbed equation .empty).2.1 _ rfl (.inr (by decide))
  obtain ⟨hrefine, -, hstep⟩ := step_fails_iff_disturbed test .empty
  have hvalue : ∃ v, test.value Scope.empty.lookup = .ok v := ⟨_, rfl⟩
  have hdisturbed : ¬ test.Disturbed .empty := by
    obtain ⟨v, hv⟩ := hvalue
    exact (hrefine v hv).1 ⟨_, rfl⟩
  refine ⟨hequation, hvalue, hdisturbed, ?_⟩
  rw [hstep g 1 0 0 rfl]
  rintro (⟨err, herr⟩ | h)
  · obtain ⟨v, hv⟩ := hvalue
    simp [hv] at herr
  · exact hdisturbed h

/-- In `label == d.text() && d == 5` it is the other way round: the test is open, and by the turn of
the first equation `d` is 5, which has no members. -/
theorem step_fails_on_open_test :
    let test := Expr.binary .logAnd
      (.binary .eql (.name "label") (.call (.selector (.name "d") { name := "text" }) []))
      (.binary .eql (.name "d") (Value.int 5).expr)
    let misuse := EvalError.invalidOperation .memberAccess (.int 5)
    (∃ e, test.value Scope.empty.lookup = .ok (.unknown e)) ∧ test.refine .empty = .error misuse ∧
      ∀ ifTrue ifFalse, (Point.branch (some test) ifTrue ifFalse).step .empty = .error misuse :=
  ⟨⟨_, rfl⟩, rfl, fun _ _ => rfl⟩

end Expr

end Staged
