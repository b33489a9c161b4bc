import Staged.Proofs.Step.Decided

/-!
What the branch on true makes of a scope. Refining is sound: where a test will be true once the rest
is known, the refined scope comes to the same values then as the scope it was made from. It keeps
what the scope knows as long as no equation of the test gives a known name another value, and an
equation may well do so, because it binds its name whatever is known of it.
-/

namespace Staged

variable {s t r u : Scope} {test : Expr}

/-! ### Soundness -/

lemma Scope.Composes.bind (h : s.Composes r u) {x : String} {v : Value}
    (hv : v.resume r.lookup = .ok (u.lookup x)) : (s.bind x v).Composes r u := by
  intro y
  by_cases hy : y = x
  · subst hy
    simpa using hv
  · simpa [hy] using h y

namespace Expr

variable {ρ : Env}

/-- An equation that is true names the value of its left side. -/
lemma value_eq_of_eql {x : Ident} {e : Expr} (hx : x.isBoolConstant = false)
    (h : (binary .eql (.ident x) e).value ρ = .ok (.bool true)) :
    e.value ρ = .ok (ρ x.name) := by
  simp only [Ident.isBoolConstant, Bool.or_eq_false_iff, beq_eq_false_iff_ne] at hx
  simp only [value_binary, value_ident, ok_bind, bind_eq_ok, pure_eq_ok, Except.ok.injEq] at h
  obtain ⟨v, hv, heq⟩ := h
  rw [hv, ← Value.eq_of_binary_eql heq, Ident.value, if_neg hx.1, if_neg hx.2]

lemma eq_true_of_logAnd {a b : Expr}
    (h : (binary .logAnd a b).value ρ = .ok (.bool true)) :
    a.value ρ = .ok (.bool true) ∧ b.value ρ = .ok (.bool true) := by
  simp only [value_binary, bind_eq_ok, pure_eq_ok, Except.ok.injEq] at h
  obtain ⟨v, hv, w, hw, hand⟩ := h
  obtain ⟨rfl, rfl⟩ := Value.eq_true_of_binary_logAnd hand
  exact ⟨hv, hw⟩

/-- A test that is true in `ρ` equates each name with the value that the name has in `ρ`. So all
that refining has to keep is what holds of the scopes that agree with `ρ` in some way. -/
lemma exists_refine {P : Scope → Prop}
    (hP : ∀ (s : Scope) (e : Expr) (w : Value), P s → e.value ρ = .ok w →
      ∃ v, e.value s.lookup = .ok v ∧ ∀ x, ρ x = w → P (s.bind x v))
    (hs : P s) (htrue : test.value ρ = .ok (.bool true)) : ∃ t, test.refine s = .ok t ∧ P t := by
  induction test, s using refine.induct with
  | case1 x e s hx => exact ⟨s, by simp only [refine, hx, if_true], hs⟩
  | case2 x e s hx =>
    have hbool : x.isBoolConstant = false := by simp_all
    obtain ⟨v, hv, hbind⟩ := hP s e _ hs (value_eq_of_eql hbool htrue)
    refine ⟨s.bind x.name v, ?_, hbind x.name rfl⟩
    simp [refine, hx, hv]
  | case3 a b s ihb iha =>
    obtain ⟨ha, hb⟩ := eq_true_of_logAnd htrue
    obtain ⟨s₁, hs₁, h₁⟩ := ihb hs hb
    obtain ⟨t, ht, h₂⟩ := iha s₁ h₁ ha
    refine ⟨t, ?_, h₂⟩
    simp [refine, hs₁, ht]
  | case4 test s h1 h2 => exact ⟨s, refine.eq_3 _ _ h1 h2, hs⟩

/-- Where a test will be true, it can be refined by now, and that adds nothing that is not so. -/
lemma exists_refine_of_composes (h : s.Composes r u)
    (htrue : test.value u.lookup = .ok (.bool true)) :
    ∃ t, test.refine s = .ok t ∧ t.Composes r u := by
  refine exists_refine (fun s e w hs hw => ?_) h htrue
  have hres := hs.completedBy.value e
  rcases hv : e.value s.lookup with err | v
  · -- an error now would be an error later
    obtain ⟨err', herr⟩ := hv ▸ hres
    simp [hw] at herr
  · rw [hv, hw] at hres
    exact ⟨v, rfl, fun x hx => hs.bind (hx ▸ hres)⟩

lemma exists_refine_of_true (htrue : test.value s.lookup = .ok (.bool true)) :
    ∃ t, test.refine s = .ok t ∧ t.lookup = s.lookup := by
  refine exists_refine (fun s' e w hs' hw => ⟨w, hs' ▸ hw, fun x hx => ?_⟩) rfl htrue
  funext y
  by_cases hy : y = x
  · simp [hy, hx]
  · simp [hy, hs']

/-- **Refining is sound.** Let `u` be the scope `s` with `r` known. If the test is true in `u`, it
can be refined in `s`, and the refined scope with `r` known looks up every name as `u` does. Where
the test is true in `s` itself, refining changes no name at all. -/
theorem composes_refine (test : Expr) :
    (∀ s r u : Scope, s.Composes r u → test.value u.lookup = .ok (.bool true) →
      ∃ t, test.refine s = .ok t ∧ t.Composes r u) ∧
    ∀ s : Scope, test.value s.lookup = .ok (.bool true) →
      ∃ t, test.refine s = .ok t ∧ t.lookup = s.lookup :=
  ⟨fun _ _ _ => exists_refine_of_composes, fun _ => exists_refine_of_true⟩

/-- `a == 1 && b == a`, where `b` is known first and `a` later. -/
theorem composes_refine_conjunction :
    let test := Expr.binary .logAnd (.binary .eql (.name "a") (Value.int 1).expr)
      (.binary .eql (.name "b") (.name "a"))
    let s := Scope.ofList [("b", .int 1)]
    let r := Scope.ofList [("a", .int 1)]
    s.Composes r (s.before r) ∧ test.value (s.before r).lookup = .ok (.bool true) ∧
      (∃ t, test.refine s = .ok t ∧ t.Composes r (s.before r)) ∧
      test.refine s = .ok (.ofList [("b", .int 1), ("b", .free "a"), ("a", .int 1)]) := by
  intro test s r
  have composed : s.Composes r (s.before r) := by
    refine Scope.composes_before fun x v hx => ⟨.int 1, ?_⟩
    have hv : v = .int 1 := by
      simp only [s, Scope.ofList, List.foldl, Scope.get?_bind, Scope.get?_empty] at hx
      grind
    rw [hv]
    exact Value.resume_of_isKnown rfl
  have htrue : test.value (s.before r).lookup = .ok (.bool true) := rfl
  exact ⟨composed, htrue, (composes_refine test).1 s r _ composed htrue, rfl⟩

end Expr

/-! ### What stays known -/

/-- All that is known in `s` is known in `t`. -/
def Scope.Keeps (s t : Scope) : Prop := ∀ y, (s.lookup y).isKnown → t.lookup y = s.lookup y

namespace Expr

/-- Where the test equates a name that is known by then, it equates it with the value it has. -/
@[simp] def Agrees : (test : Expr) → Scope → Prop
  | .binary .eql (.ident x) e, s =>
    x.isBlank = false → x.isBoolConstant = false → (s.lookup x.name).isKnown →
      e.value s.lookup = .ok (s.lookup x.name)
  | .binary .logAnd a b, s => b.Agrees s ∧ ∀ t, b.refine s = .ok t → a.Agrees t
  | _, _ => True

lemma keeps_bind_iff {x : String} {v : Value} :
    s.Keeps (s.bind x v) ↔ ((s.lookup x).isKnown → v = s.lookup x) := by
  constructor
  · intro h hx
    simpa using h x hx
  · intro h y hy
    by_cases hyx : y = x
    · subst hyx
      simpa using h hy
    · simp [hyx]

/-- An equation keeps what is known if it agrees with it, and only then. -/
lemma keeps_refine_eql_iff {x : Ident} {e : Expr} (ht : (binary .eql (.ident x) e).refine s = .ok t) :
    s.Keeps t ↔ (binary .eql (.ident x) e).Agrees s := by
  by_cases hx : x.isBlank || x.isBoolConstant
  · simp only [refine, hx, if_true, Except.ok.injEq] at ht
    subst ht
    refine ⟨fun _ hb hc => ?_, fun _ _ _ => rfl⟩
    simp [hb, hc] at hx
  · simp only [refine, if_neg hx, bind_eq_ok, pure_eq_ok, Except.ok.injEq] at ht
    obtain ⟨v, hv, rfl⟩ := ht
    simp only [Bool.or_eq_true, not_or, Bool.not_eq_true] at hx
    simp [keeps_bind_iff, hx, hv]

lemma keeps_refine (h : test.Agrees s) (ht : test.refine s = .ok t) : s.Keeps t := by
  induction test, s using refine.induct generalizing t with
  | case1 x e s hx => exact (keeps_refine_eql_iff ht).2 h
  | case2 x e s hx => exact (keeps_refine_eql_iff ht).2 h
  | case3 a b s ihb iha =>
    simp only [refine, bind_eq_ok] at ht
    obtain ⟨s₁, hs₁, ht⟩ := ht
    rw [Agrees] at h
    have hb : s.Keeps s₁ := ihb h.1 hs₁
    have ha : s₁.Keeps t := iha s₁ (h.2 s₁ hs₁) ht
    intro y hy
    rw [ha y (by rwa [hb y hy]), hb y hy]
  | case4 test s h1 h2 =>
    rw [refine.eq_3 _ _ h1 h2, Except.ok.injEq] at ht
    exact ht ▸ fun _ _ => rfl

lemma agrees_of_true (htrue : test.value s.lookup = .ok (.bool true)) : test.Agrees s := by
  induction test, s using refine.induct with
  | case1 x e s hx => exact fun _ hc _ => value_eq_of_eql hc htrue
  | case2 x e s hx => exact fun _ hc _ => value_eq_of_eql hc htrue
  | case3 a b s ihb iha =>
    obtain ⟨ha, hb⟩ := eq_true_of_logAnd htrue
    rw [Agrees]
    exact ⟨ihb hb, fun s₁ hs₁ => iha s₁ (lookup_refine hb hs₁ ▸ ha)⟩
  | case4 test s h1 h2 =>
    rw [Agrees.eq_3 _ _ h1 h2]
    trivial

/-- **What stays known.** A refined scope knows all that was known before if the test agrees with
it. A test that comes out true does, so it takes an undecided one to take knowledge away; and an
equation does take it away if it does not agree. -/
theorem refine_keeps_known (test : Expr) (s : Scope) :
    (test.value s.lookup = .ok (.bool true) → test.Agrees s) ∧
    (∀ t, test.refine s = .ok t → test.Agrees s →
      ∀ y, (s.lookup y).isKnown → t.lookup y = s.lookup y) ∧
    ∀ x e t, test = .binary .eql (.ident x) e → test.refine s = .ok t →
      (∀ y, (s.lookup y).isKnown → t.lookup y = s.lookup y) → test.Agrees s := by
  refine ⟨agrees_of_true, fun t ht h => keeps_refine h ht, ?_⟩
  rintro x e t rfl ht h
  exact (keeps_refine_eql_iff ht).1 h

/-- `x == 5 && y == x`, where `x` is known to be 5 and nothing is known of `y`. -/
theorem refine_keeps_known_undecided :
    let test := Expr.binary .logAnd (.binary .eql (.name "x") (Value.int 5).expr)
      (.binary .eql (.name "y") (.name "x"))
    let s := Scope.ofList [("x", .int 5)]
    let t := Scope.ofList [("x", .int 5), ("y", .int 5), ("x", .int 5)]
    test.value s.lookup =
        .ok (.unknown (.binary .logAnd (.name "true") (.binary .eql (.name "y") (Value.int 5).expr))) ∧
      test.refine s = .ok t ∧ test.Agrees s ∧ t.lookup "x" = s.lookup "x" := by
  intro test s t
  have ht : test.refine s = .ok t := rfl
  have h : test.Agrees s := by
    refine ⟨fun _ _ hy => ?_, fun t ht _ _ _ => ?_⟩
    · simp [s, Scope.ofList, Value.free, Value.isKnown] at hy
    · obtain rfl := Except.ok.inj ht
      rfl
  exact ⟨rfl, ht, h, (refine_keeps_known test s).2.1 t ht h "x" rfl⟩

/-- Where `x` is known to be 5 and nothing is known of `y`, the test `x == y` is open, and refining
makes `x` the unknown `y`. -/
theorem refine_forgets_known :
    let test := Expr.binary .eql (.name "x") (.name "y")
    let s := Scope.ofList [("x", .int 5)]
    let t := Scope.ofList [("x", .int 5), ("x", .free "y")]
    (∃ v, test.value s.lookup = .ok v ∧ v ≠ .bool false) ∧ test.refine s = .ok t ∧
      (s.lookup "x").isKnown ∧ t.lookup "x" ≠ s.lookup "x" := by
  intro test s t
  exact ⟨⟨_, rfl, nofun⟩, rfl, rfl, nofun⟩

end Expr

end Staged
