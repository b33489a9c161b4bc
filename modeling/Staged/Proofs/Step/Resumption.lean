import Staged.Step
import Staged.Proofs.Eval.Staging

/-!
Steps under less and under more knowledge. A scope `t` that holds what a scope `s` comes to once the
rest is known takes no step that `s` does not take too, and every step leads to scopes that are
related in the same way.
-/

namespace Staged

namespace Expr

/-- The truth values are read nowhere as variables. -/
lemma isBoolConstant_of_mem_idents {e : Expr} {x : Ident} (h : x ∈ e.idents) :
    x.isBoolConstant = false := by
  induction e with
  | lit l => simp [idents] at h
  | ident y =>
    rw [idents] at h
    split at h
    · simp at h
    · next hy => simp_all
  | binary op a b iha ihb | index a b iha ihb =>
    rw [idents, List.mem_append] at h
    exact h.elim iha ihb
  | unary op a ih | paren a ih | selector a y ih => exact ih h
  | call f args ihf ihargs =>
    rw [idents, List.mem_append, identsAll_eq_flatMap, List.mem_flatMap] at h
    obtain h | ⟨a, ha, h⟩ := h
    · exact ihf h
    · exact ihargs a ha h

end Expr

namespace Scope

/-- The scope `t` looks a name up in `s`, takes the value found there on to `r`, and looks up in `r`
what `s` does not bind. -/
def Composes (s r t : Scope) : Prop :=
  ∀ x, (s.get? x).elim (.ok (r.lookup x)) (Value.resume r.lookup) = .ok (t.lookup x)

/-- What `s` binds and goes on to `r`, in front of `r`. -/
def before (s r : Scope) : Scope :=
  ⟨s.bindings.map (fun (x, v) => (x, (v.resume r.lookup).toOption.getD v)) ++ r.bindings⟩

lemma get?_before (s r : Scope) (x : String) :
    (s.before r).get? x =
      ((s.get? x).map fun v => (v.resume r.lookup).toOption.getD v).or (r.get? x) := by
  unfold before get?
  rw [List.lookup_append]
  congr 1
  induction s.bindings with
  | nil => rfl
  | cons b bs ih =>
    obtain ⟨y, v⟩ := b
    by_cases hx : x = y
    · simp [hx]
    · simp [List.lookup_cons, beq_eq_false_iff_ne.2 hx, ih]

/-- The composite exists as soon as all that `s` binds goes on to `r`. -/
lemma composes_before {s r : Scope}
    (h : ∀ x v, s.get? x = some v → ∃ w, v.resume r.lookup = .ok w) : s.Composes r (s.before r) := by
  intro x
  rcases hs : s.get? x with _ | v
  · simp [lookup, get?_before, hs]
  · obtain ⟨w, hw⟩ := h x v hs
    simp [lookup, get?_before, hs, hw, Except.toOption]

/-- As far as evaluation sees, `t` is `s` with `r` known. -/
def CompletedBy (s r t : Scope) : Prop :=
  ∀ x, x ≠ "true" → x ≠ "false" → s.lookup.Composes r.lookup t.lookup x

variable {s s' r t t' : Scope}

lemma Composes.completedBy (h : s.Composes r t) : s.CompletedBy r t := by
  intro x ht hf
  have hx := h x
  rcases hs : s.get? x with _ | v
  · rw [hs] at hx
    simp only [Env.Composes, lookup, hs, Option.getD_none, Value.resume_free ht hf]
    exact hx
  · rw [hs] at hx
    simp only [Env.Composes, lookup, hs, Option.getD_some]
    exact hx

namespace CompletedBy

lemma bind (h : s.CompletedBy r t) (x : String) {v w : Value} (hv : v.resume r.lookup = .ok w) :
    (s.bind x v).CompletedBy r (t.bind x w) := by
  intro y ht hf
  by_cases hy : y = x
  · simpa [Env.Composes, hy] using hv
  · simpa [Env.Composes, hy] using h y ht hf

lemma value (h : s.CompletedBy r t) (e : Expr) :
    Resumes (Value.resume r.lookup) (e.value s.lookup) (e.value t.lookup) := by
  refine Expr.resumes_value fun x hx => ?_
  have hx := Expr.isBoolConstant_of_mem_idents hx
  simp only [Ident.isBoolConstant, Bool.or_eq_false_iff, beq_eq_false_iff_ne] at hx
  exact h x.name hx.1 hx.2

lemma value_eq_ok (h : s.CompletedBy r t) {e : Expr} {v : Value} (hv : e.value s.lookup = .ok v) :
    v.resume r.lookup = e.value t.lookup := by
  have := h.value e
  rwa [hv] at this

lemma evalArgs_eq_ok (h : s.CompletedBy r t) {es : List Expr} {vs : List Value}
    (hvs : Expr.evalArgs s.lookup es = .ok vs) :
    vs.mapM (Value.resume r.lookup) = Expr.evalArgs t.lookup es := by
  have hargs : Resumes (List.mapM (Value.resume r.lookup)) (es.mapM (Expr.value s.lookup))
      (es.mapM (Expr.value t.lookup)) := Resumes.args fun e _ => h.value e
  rw [Expr.evalArgs_eq] at hvs ⊢
  rwa [hvs] at hargs

/-- Targets that take the same values are bound alike, as long as none is left without a value. -/
lemma assign {targets : List Expr} {vs ws : List Value} (h : s.CompletedBy r t)
    (covered : ∀ i x, targets[i]? = some (.ident x) → x.isBlank = false → i < vs.length)
    (hvs : List.Forall₂ (fun v w => v.resume r.lookup = .ok w) vs ws) :
    (s.assign targets vs).CompletedBy r (t.assign targets ws) := by
  induction targets generalizing s t vs ws with
  | nil => exact h
  | cons target targets ih =>
    have hcovered : ∀ i x, targets[i]? = some (.ident x) → x.isBlank = false →
        i < vs.tail.length := by
      intro i x hx hb
      have := covered (i + 1) x hx hb
      simp only [List.length_tail]
      omega
    have htail : List.Forall₂ (fun v w => v.resume r.lookup = .ok w) vs.tail ws.tail := by
      cases hvs with
      | nil => exact .nil
      | cons _ hvs => exact hvs
    cases target with
    | ident x =>
      simp only [Scope.assign]
      split
      · exact ih h hcovered htail
      · next hb =>
        have := covered 0 x rfl (by simpa using hb)
        cases hvs with
        | nil => simp at this
        | cons hv hvs => exact ih (h.bind x.name hv) hcovered htail
    | _ => exact ih h hcovered htail

lemma refine {test : Expr} (h : s.CompletedBy r t) (hs : test.refine s = .ok s')
    (ht : test.refine t = .ok t') : s'.CompletedBy r t' := by
  fun_induction Expr.refine test s generalizing t s' t' with
  | case1 x e s hx =>
    simp only [Expr.refine, hx, if_true, Except.ok.injEq] at hs ht
    exact hs ▸ ht ▸ h
  | case2 x e s hx =>
    simp only [Expr.refine, if_neg hx, bind_eq_ok, pure_eq_ok, Except.ok.injEq] at hs ht
    obtain ⟨v, hv, rfl⟩ := hs
    obtain ⟨w, hw, rfl⟩ := ht
    exact h.bind x.name ((h.value_eq_ok hv).trans hw)
  | case3 a b s ihb iha =>
    simp only [Expr.refine, bind_eq_ok] at hs ht
    obtain ⟨s₁, hs₁, hs⟩ := hs
    obtain ⟨t₁, ht₁, ht⟩ := ht
    exact iha s₁ (ihb h hs₁ ht₁) hs ht
  | case4 test s h1 h2 =>
    simp only [Expr.refine, Except.ok.injEq] at hs ht
    exact hs ▸ ht ▸ h

end CompletedBy

end Scope

/-- Every identifier that takes a value has one at its position; the blank identifier needs none. -/
def Point.Covered : Point → Prop
  | .assign targets values _ _ =>
    ∀ i x, targets[i]? = some (.ident x) → x.isBlank = false → i < values.length
  | .evaluate .. | .branch .. | .ret _ | .unsupported _ => True

/-- The same point, with what is known in `a` completed by `r` in `b`. -/
def State.CompletedBy (a : State) (r : Scope) (b : State) : Prop :=
  b.point = a.point ∧ a.scope.CompletedBy r b.scope

namespace Point

variable {s r t : Scope}

/-- The states after a test, by its value. -/
lemma step_branch_eq_ok {test : Expr} {ifTrue ifFalse : PointId} {next : List State}
    (h : (branch (some test) ifTrue ifFalse).step s = .ok next) :
    ∃ v, test.value s.lookup = .ok v ∧
      (v = .bool false ∧ next = [⟨ifFalse, s⟩] ∨
        ∃ s', test.refine s = .ok s' ∧
          (v = .bool true ∧ next = [⟨ifTrue, s'⟩] ∨
            v ≠ .bool true ∧ v ≠ .bool false ∧ next = [⟨ifTrue, s'⟩, ⟨ifFalse, s⟩])) := by
  rw [step, bind_eq_ok] at h
  obtain ⟨v, hv, h⟩ := h
  refine ⟨v, hv, ?_⟩
  split at h
  · simp only [bind_eq_ok, pure_eq_ok, Except.ok.injEq] at h
    obtain ⟨s', hs', rfl⟩ := h
    exact .inr ⟨s', hs', .inl ⟨rfl, rfl⟩⟩
  · simp only [pure_eq_ok, Except.ok.injEq] at h
    exact .inl ⟨rfl, h.symm⟩
  · next ht hf =>
    simp only [bind_eq_ok, pure_eq_ok, Except.ok.injEq] at h
    obtain ⟨s', hs', rfl⟩ := h
    exact .inr ⟨s', hs', .inr ⟨ht, hf, rfl⟩⟩

/-- A step follows an edge of the graph. The scope stays as it is, or it takes the values of an
assignment, or what holds once a test is true. -/
lemma cases_of_mem_step {point : Point} {next : List State} {b : State}
    (h : point.step s = .ok next) (hb : b ∈ next) :
    b.point ∈ point.successors ∧
      (((∀ targets values define q, point ≠ .assign targets values define q) ∧ b.scope = s) ∨
        (∃ targets values define q vs, point = .assign targets values define q ∧
          Expr.evalArgs s.lookup values = .ok vs ∧ b.scope = s.assign targets vs) ∨
        ∃ test ifTrue ifFalse v, point = .branch (some test) ifTrue ifFalse ∧
          test.value s.lookup = .ok v ∧ v ≠ .bool false ∧ test.refine s = .ok b.scope) := by
  cases point with
  | evaluate e q =>
    obtain rfl := Except.ok.inj h
    obtain rfl := List.mem_singleton.1 hb
    exact ⟨by simp [successors], .inl ⟨by simp, rfl⟩⟩
  | assign targets values define q =>
    simp only [step, bind_eq_ok, pure_eq_ok, Except.ok.injEq] at h
    obtain ⟨vs, hvs, rfl⟩ := h
    obtain rfl := List.mem_singleton.1 hb
    exact ⟨by simp [successors], .inr (.inl ⟨_, _, _, _, vs, rfl, hvs, rfl⟩)⟩
  | branch test ifTrue ifFalse =>
    cases test with
    | none =>
      obtain rfl := Except.ok.inj h
      obtain rfl := List.mem_singleton.1 hb
      exact ⟨by simp [successors], .inl ⟨by simp, rfl⟩⟩
    | some test =>
      obtain ⟨v, hv, ⟨-, rfl⟩ | ⟨s', hs', ⟨rfl, rfl⟩ | ⟨-, hfalse, rfl⟩⟩⟩ := step_branch_eq_ok h
      · obtain rfl := List.mem_singleton.1 hb
        exact ⟨by simp [successors], .inl ⟨by simp, rfl⟩⟩
      · obtain rfl := List.mem_singleton.1 hb
        exact ⟨by simp [successors], .inr (.inr ⟨test, _, _, _, rfl, hv, by simp, hs'⟩)⟩
      · rcases List.mem_pair.1 hb with rfl | rfl
        · exact ⟨by simp [successors], .inr (.inr ⟨test, _, _, v, rfl, hv, hfalse, hs'⟩)⟩
        · exact ⟨by simp [successors], .inl ⟨by simp, rfl⟩⟩
  | ret | unsupported =>
    obtain rfl := Except.ok.inj h
    simp at hb

/-- More knowledge decides a test that less knowledge leaves open, and never the other way. -/
lemma step_branch_completedBy {test : Expr} {ifTrue ifFalse : PointId} {as bs : List State}
    (h : s.CompletedBy r t) (hs : (branch (some test) ifTrue ifFalse).step s = .ok as)
    (ht : (branch (some test) ifTrue ifFalse).step t = .ok bs) :
    List.SublistForall₂ (fun b a => a.CompletedBy r b) bs as := by
  obtain ⟨v, hv, has⟩ := step_branch_eq_ok hs
  obtain ⟨w, hw, hbs⟩ := step_branch_eq_ok ht
  have hvw : v.resume r.lookup = .ok w := (h.value_eq_ok hv).trans hw
  obtain ⟨rfl, rfl⟩ | ⟨s', hs', ⟨rfl, rfl⟩ | ⟨-, -, rfl⟩⟩ := has
  · -- decided to be false, and so it stays
    have hw : w = .bool false := Value.eq_of_resume_eq_ok rfl hvw
    obtain ⟨-, rfl⟩ | ⟨_, _, ⟨hw', -⟩ | ⟨-, hw', -⟩⟩ := hbs
    · exact .cons ⟨rfl, h⟩ .nil
    · simp [hw] at hw'
    · exact absurd hw hw'
  · -- decided to be true, and so it stays
    have hw : w = .bool true := Value.eq_of_resume_eq_ok rfl hvw
    obtain ⟨hw', -⟩ | ⟨t', ht', ⟨-, rfl⟩ | ⟨hw', -, -⟩⟩ := hbs
    · simp [hw] at hw'
    · exact .cons ⟨rfl, h.refine hs' ht'⟩ .nil
    · exact absurd hw hw'
  · -- open, so whichever states follow with more knowledge follow here
    obtain ⟨-, rfl⟩ | ⟨t', ht', ⟨-, rfl⟩ | ⟨-, -, rfl⟩⟩ := hbs
    · exact .cons_right (.cons ⟨rfl, h⟩ .nil)
    · exact .cons ⟨rfl, h.refine hs' ht'⟩ .nil
    · exact .cons ⟨rfl, h.refine hs' ht'⟩ (.cons ⟨rfl, h⟩ .nil)

/-- **Steps.** Of the states that are reached with less knowledge, those reached with more are
some, in the same order. -/
theorem step_completedBy {point : Point} {as bs : List State} (covered : point.Covered)
    (h : s.CompletedBy r t) (hs : point.step s = .ok as) (ht : point.step t = .ok bs) :
    List.SublistForall₂ (fun b a => a.CompletedBy r b) bs as := by
  cases point with
  | evaluate e next =>
    simp only [step, Except.ok.injEq] at hs ht
    rw [← hs, ← ht]
    exact .cons ⟨rfl, h⟩ .nil
  | branch test ifTrue ifFalse =>
    cases test with
    | none =>
      simp only [step, Except.ok.injEq] at hs ht
      rw [← hs, ← ht]
      exact .cons ⟨rfl, h⟩ .nil
    | some test => exact step_branch_completedBy h hs ht
  | assign targets values define next =>
    simp only [step, bind_eq_ok, pure_eq_ok, Except.ok.injEq] at hs ht
    obtain ⟨vs, hvs, rfl⟩ := hs
    obtain ⟨ws, hws, rfl⟩ := ht
    have hresume := (h.evalArgs_eq_ok hvs).trans hws
    have hlength : vs.length = values.length := by
      rw [Expr.evalArgs_eq, mapM_eq_ok] at hvs
      exact hvs.length_eq.symm
    have hassign := h.assign (fun i x hx hb => hlength ▸ covered i x hx hb) (mapM_eq_ok.1 hresume)
    exact .cons ⟨rfl, hassign⟩ .nil
  | ret results | unsupported stmt =>
    simp only [step, Except.ok.injEq] at hs ht
    rw [← hs, ← ht]
    exact .nil

end Point

end Staged
