import Staged.Proofs.Eval.Grouping
import Staged.Proofs.Exploration.Levels
import Staged.Proofs.Graph.Closed
import Staged.Proofs.Graph.Structured
import Staged.Proofs.Step.Branching
import Staged.Proofs.Step.Resumption

/-!
Grouped residuals along a run. Assignments bind what they evaluate, and so do the equations of a
test; a return yields it. All of that stays grouped just when the expressions that are evaluated for
it fit the scopes that they are evaluated in.
-/

namespace Staged

namespace Scope

/-- Everything bound in the scope is grouped when it is written out. -/
def IsGrouped (s : Scope) : Prop := ∀ b ∈ s.bindings, b.2.expr.isGrouped

variable {s t : Scope} {x : String} {v : Value}

lemma isGrouped_bind : (s.bind x v).IsGrouped ↔ v.expr.isGrouped ∧ s.IsGrouped := by
  simp [IsGrouped]

lemma IsGrouped.lookup (h : s.IsGrouped) (x : String) : (s.lookup x).expr.isGrouped := by
  rw [Scope.lookup]
  rcases hx : s.get? x with _ | v
  · rfl
  · exact h (x, v) (mem_of_lookup_eq_some hx)

/-- An assignment leaves the bindings of the scope and adds one for each identifier that is not
blank. -/
lemma mem_bindings_assign {targets : List Expr} {vs : List Value} {b : String × Value} :
    b ∈ (s.assign targets vs).bindings ↔ b ∈ s.bindings ∨ ∃ (i : Nat) (x : Ident),
      targets[i]? = some (.ident x) ∧ x.isBlank = false ∧
        b = (x.name, vs[i]?.getD (.free x.name)) := by
  induction targets generalizing s vs with
  | nil => simp [assign]
  | cons target targets ih =>
    rw [← Nat.or_exists_add_one]
    cases target with
    | ident x =>
      rw [assign]
      split
      · next hblank => simp [ih, hblank]
      · next hblank =>
        simp [ih, hblank, or_assoc, or_left_comm, List.head?_eq_getElem?]
    | _ => simp [assign, ih]

/-- What an assignment binds is grouped where the values of its expressions are. -/
lemma IsGrouped.assign (h : s.IsGrouped) {targets values : List Expr} {vs : List Value}
    (hvs : Expr.evalArgs s.lookup values = .ok vs)
    (hvalues : ∀ (i : Nat) (x : Ident) (e : Expr) (v : Value), targets[i]? = some (.ident x) →
      x.isBlank = false → values[i]? = some e → e.value s.lookup = .ok v → v.expr.isGrouped) :
    (s.assign targets vs).IsGrouped := by
  intro b hb
  rw [Expr.evalArgs_eq] at hvs
  obtain hb | ⟨i, x, hx, hblank, rfl⟩ := mem_bindings_assign.1 hb
  · exact h b hb
  · rcases he : values[i]? with _ | e
    · -- a target without a value becomes free
      have hnone : vs[i]? = none := by
        rw [List.getElem?_eq_none_iff, ← (mapM_eq_ok.1 hvs).length_eq]
        exact List.getElem?_eq_none_iff.1 he
      simp [hnone, Value.free, Value.expr, Expr.name]
    · obtain ⟨v, hv, hval⟩ := exists_getElem?_of_mapM_eq_ok hvs he
      simpa [hv] using hvalues i x e v hx hblank he hval

lemma equate_eq_ok {x : String} {e : Expr} : s.equate (x, e) = .ok t ↔
    ∃ v, e.value s.lookup = .ok v ∧ s.bind x v = t := by
  simp [equate, bind_eq_ok]

/-- Equations only add bindings. -/
lemma isGrouped_of_foldlM {eqs : List (String × Expr)} (ht : eqs.foldlM equate s = .ok t)
    (h : t.IsGrouped) : s.IsGrouped := by
  induction eqs generalizing s with
  | nil => exact Except.ok.inj ht ▸ h
  | cons eq eqs ih =>
    obtain ⟨r, hr, ht⟩ := bind_eq_ok.1 (List.foldlM_cons.symm.trans ht)
    obtain ⟨v, -, rfl⟩ := equate_eq_ok.1 hr
    exact (isGrouped_bind.1 (ih ht)).2

/-- What equations bind is grouped just when each of them fits the scope that those before it have
left. -/
lemma isGrouped_foldlM_iff {eqs : List (String × Expr)} (heqs : ∀ eq ∈ eqs, eq.2.isGrouped)
    (hs : s.IsGrouped) (ht : eqs.foldlM equate s = .ok t) :
    t.IsGrouped ↔ ∀ before x e after r, eqs = before ++ (x, e) :: after →
      before.foldlM equate s = .ok r → e.Fits r.lookup := by
  induction eqs generalizing s with
  | nil =>
    obtain rfl := Except.ok.inj ht
    exact iff_of_true hs (by simp)
  | cons eq eqs ih =>
    obtain ⟨x, e⟩ := eq
    obtain ⟨he, heqs⟩ := List.forall_mem_cons.1 heqs
    obtain ⟨s', hs', ht⟩ := bind_eq_ok.1 (List.foldlM_cons.symm.trans ht)
    obtain ⟨v, hv, rfl⟩ := equate_eq_ok.1 hs'
    have hfits : v.expr.isGrouped ↔ e.Fits s.lookup := Expr.isGrouped_expr_iff hs.lookup he hv
    constructor
    · intro h before y d after r heq hr
      have hbind := isGrouped_of_foldlM ht h
      cases before with
      | nil =>
        obtain ⟨⟨rfl, rfl⟩, rfl⟩ : (x = y ∧ e = d) ∧ eqs = after := by simpa using heq
        obtain rfl := Except.ok.inj hr
        exact hfits.1 (isGrouped_bind.1 hbind).1
      | cons eq' before =>
        obtain ⟨rfl, rfl⟩ : (x, e) = eq' ∧ eqs = before ++ (y, d) :: after := by simpa using heq
        rw [List.foldlM_cons, hs', ok_bind] at hr
        exact (ih heqs hbind ht).1 h before y d after r rfl hr
    · intro h
      have hbind : (s.bind x v).IsGrouped := isGrouped_bind.2 ⟨hfits.2 (h [] x e eqs s rfl rfl), hs⟩
      refine (ih heqs hbind ht).2 fun before y d after r heq hr => ?_
      refine h ((x, e) :: before) y d after r (by rw [heq, List.cons_append]) ?_
      rw [List.foldlM_cons, hs', ok_bind, hr]

end Scope

namespace Point

/-- At a point, in the scope `s`, the value that `e` has in the scope `t` is bound or returned. -/
inductive Keeps (s : Scope) : Point → Expr → Scope → Prop where
  | assign {targets values define next vs x e} {i : Nat}
      (hvs : Expr.evalArgs s.lookup values = .ok vs) (hx : targets[i]? = some (Expr.ident x))
      (hblank : x.isBlank = false) (he : values[i]? = some e) :
      Keeps s (.assign targets values define next) e s
  | equation {test ifTrue ifFalse v r before x e after t} (hv : test.value s.lookup = .ok v)
      (hfalse : v ≠ .bool false) (hr : test.refine s = .ok r)
      (heq : test.equations = before ++ (x, e) :: after)
      (ht : before.foldlM Scope.equate s = .ok t) :
      Keeps s (.branch (some test) ifTrue ifFalse) e t
  | result {results vs e} (hvs : Expr.evalArgs s.lookup results = .ok vs) (he : e ∈ results) :
      Keeps s (.ret results) e s

/-- All that a point evaluates in order to keep it is grouped. -/
def IsGrouped (point : Point) : Prop := ∀ s e t, point.Keeps s e t → e.isGrouped

/-- All that a point evaluates in order to keep it fits. -/
def Fits (point : Point) (s : Scope) : Prop := ∀ e t, point.Keeps s e t → e.Fits t.lookup

variable {point : Point} {s : Scope}

lemma mem_step_branch {test : Expr} {ifTrue ifFalse : PointId} {v : Value} {r : Scope}
    (hv : test.value s.lookup = .ok v) (hfalse : v ≠ .bool false) (hr : test.refine s = .ok r) :
    ∃ next, (branch (some test) ifTrue ifFalse).step s = .ok next ∧ ⟨ifTrue, r⟩ ∈ next := by
  simp only [step, hv, hr, ok_bind, pure_eq_ok]
  split <;> simp_all

/-- What holds once a test is true is grouped just when the equations of the test fit. -/
lemma isGrouped_refine_iff {test : Expr} {ifTrue ifFalse : PointId} {v : Value} {r : Scope}
    (hp : (branch (some test) ifTrue ifFalse).IsGrouped) (hs : s.IsGrouped)
    (hv : test.value s.lookup = .ok v) (hfalse : v ≠ .bool false) (hr : test.refine s = .ok r) :
    r.IsGrouped ↔ (branch (some test) ifTrue ifFalse).Fits s := by
  have hfold : test.equations.foldlM Scope.equate s = .ok r := Expr.refine_eq_foldlM test s ▸ hr
  have heqs : ∀ eq ∈ test.equations, eq.2.isGrouped := by
    intro eq hmem
    obtain ⟨before, after, heq⟩ := List.append_of_mem hmem
    rw [heq, List.foldlM_append] at hfold
    obtain ⟨t, ht, -⟩ := bind_eq_ok.1 hfold
    exact hp s eq.2 t (.equation hv hfalse hr heq ht)
  rw [Scope.isGrouped_foldlM_iff heqs hs hfold]
  constructor
  · rintro h e t (_ | ⟨-, -, -, heq, ht⟩)
    exact h _ _ e _ t heq ht
  · intro h before x e after t heq ht
    exact h e t (.equation hv hfalse hr heq ht)

/-- What a point binds for the states after it is grouped where all that it keeps fits. -/
lemma isGrouped_of_mem_step (hp : point.IsGrouped) (hs : s.IsGrouped) (h : point.Fits s)
    {next : List State} (hnext : point.step s = .ok next) {b : State} (hb : b ∈ next) :
    b.scope.IsGrouped := by
  obtain ⟨-, ⟨-, hb⟩ | ⟨targets, values, define, q, vs, rfl, hvs, hb⟩ |
    ⟨test, ifTrue, ifFalse, v, rfl, hv, hfalse, hr⟩⟩ := cases_of_mem_step hnext hb
  · exact hb ▸ hs
  · rw [hb]
    refine hs.assign hvs fun i x e v hx hblank he hval => ?_
    have hkeeps : Keeps s (.assign targets values define q) e s := .assign hvs hx hblank he
    exact (Expr.isGrouped_expr_iff hs.lookup (hp s e s hkeeps) hval).2 (h e s hkeeps)
  · exact (isGrouped_refine_iff hp hs hv hfalse hr).2 h

/-- What a point returns is grouped where all that it keeps fits. -/
lemma isGrouped_of_returned (hp : point.IsGrouped) (hs : s.IsGrouped) (h : point.Fits s)
    {vs : List Value} (hvs : point.returned s = .ok (some vs)) : ∀ v ∈ vs, v.expr.isGrouped := by
  cases point with
  | ret results =>
    simp only [returned, bind_eq_ok, pure_eq_ok, Except.ok.injEq, Option.some.injEq,
      exists_eq_right] at hvs
    have hkeeps (e : Expr) (he : e ∈ results) : Keeps s (.ret results) e s := .result hvs he
    exact (Expr.forall_isGrouped_iff hs.lookup (fun e he => hp s e s (hkeeps e he)) hvs).2
      fun e he => h e s (hkeeps e he)
  | evaluate | assign | branch | unsupported => simp [returned] at hvs

/-- **One point.** From a grouped scope, all that a point binds for the states after it and all that
it returns is grouped just when all that it keeps fits. -/
theorem fits_iff (hp : point.IsGrouped) (hs : s.IsGrouped) :
    point.Fits s ↔
      (∀ next, point.step s = .ok next → ∀ b ∈ next, b.scope.IsGrouped) ∧
        ∀ vs, point.returned s = .ok (some vs) → ∀ v ∈ vs, v.expr.isGrouped := by
  refine ⟨fun h => ⟨fun next hnext b => isGrouped_of_mem_step hp hs h hnext,
    fun vs => isGrouped_of_returned hp hs h⟩, fun ⟨hstep, hret⟩ e t hkeeps => ?_⟩
  have he : e.isGrouped := hp s e t hkeeps
  cases hkeeps with
  | @assign targets values define q vs x e i hvs hx hblank hi =>
    obtain ⟨v, hv, hval⟩ := exists_getElem?_of_mapM_eq_ok ((Expr.evalArgs_eq _ _).symm.trans hvs) hi
    have hnext : (s.assign targets vs).IsGrouped :=
      hstep [⟨q, s.assign targets vs⟩] (by simp [step, hvs]) _ List.mem_cons_self
    refine (Expr.isGrouped_expr_iff hs.lookup he hval).1 (hnext (x.name, v) ?_)
    exact Scope.mem_bindings_assign.2 (.inr ⟨i, x, hx, hblank, by simp [hv]⟩)
  | @equation test ifTrue ifFalse v r before x e after t hv hfalse hr heq ht =>
    obtain ⟨next, hnext, hmem⟩ := mem_step_branch hv hfalse hr
    exact (isGrouped_refine_iff hp hs hv hfalse hr).1 (hstep next hnext _ hmem) e t
      (.equation hv hfalse hr heq ht)
  | @result results vs e hvs hmem =>
    have hresults : ∀ e ∈ results, e.isGrouped := fun e he => hp s e s (.result hvs he)
    exact (Expr.forall_isGrouped_iff hs.lookup hresults hvs).1 (hret vs (by simp [returned, hvs])) e
      hmem

end Point

namespace FlowGraph

/-- All that is kept at the point of a state fits. -/
def FitsAt (g : FlowGraph) (a : State) : Prop :=
  ∀ point, g.get? a.point = some point → point.Fits a.scope

/-- **Runs.** From a grouped scope, all scopes that are reached and all values that are returned are
grouped just when everything that is kept on the way fits. -/
theorem isGrouped_iff_fitsAt {g : FlowGraph} {start : State}
    (hg : ∀ p point, g.get? p = some point → point.IsGrouped) (hs : start.scope.IsGrouped) :
    (∀ b, Relation.ReflTransGen (fun a b => b ∈ g.following a) start b →
      b.scope.IsGrouped ∧ ∀ vs, g.returned b = .ok (some vs) → ∀ v ∈ vs, v.expr.isGrouped) ↔
    ∀ a, Relation.ReflTransGen (fun a b => b ∈ g.following a) start a → g.FitsAt a := by
  constructor
  · intro h a ha point hpoint
    refine (Point.fits_iff (hg _ point hpoint) (h a ha).1).2 ⟨fun next hnext b hb => ?_,
      fun vs hvs => (h a ha).2 vs (by simp [returned, hpoint, hvs])⟩
    exact (h b (ha.tail (mem_following_iff.2 ⟨point, next, hpoint, hnext, hb⟩))).1
  · intro h b hb
    have hscope : b.scope.IsGrouped := by
      induction hb with
      | refl => exact hs
      | @tail a b ha hab ih =>
        obtain ⟨point, next, hpoint, hnext, hmem⟩ := mem_following_iff.1 hab
        exact ((Point.fits_iff (hg _ point hpoint) ih).1 (h a ha point hpoint)).1 next hnext b hmem
    refine ⟨hscope, fun vs hvs => ?_⟩
    rcases hpoint : g.get? b.point with _ | point
    · simp [returned, hpoint] at hvs
    · rw [returned, hpoint] at hvs
      exact ((Point.fits_iff (hg _ point hpoint) hscope).1 (h b hb point hpoint)).2 vs hvs

end FlowGraph

namespace Stmt

mutual

/-- The expressions that are written in a statement. -/
def exprs : Stmt → List Expr
  | .expr e => [e]
  | .assign targets values _ _ => targets ++ values
  | .count target _ => [target]
  | .block body => exprsAll body
  | .ifElse init test body otherwise =>
    test :: (exprsOption init ++ exprs body ++ exprsOption otherwise)
  | .loop init test post body =>
    test.toList ++ (exprsOption init ++ exprsOption post ++ exprs body)
  | .ret results => results
  | .labeled _ body => exprs body
  | .empty | .jump .. | .other _ => []

def exprsOption : Option Stmt → List Expr
  | none => []
  | some s => exprs s

def exprsAll : List Stmt → List Expr
  | [] => []
  | s :: rest => exprs s ++ exprsAll rest

end

lemma exprsOption_eq (s? : Option Stmt) : exprsOption s? = exprs (s?.getD .empty) := by
  cases s? <;> simp [exprsOption, exprs]

end Stmt

/-! ### Points of grouped statements -/

namespace Expr

/-- The right side of an equation is within the test. -/
lemma isGrouped_of_mem_equations {test e : Expr} {x : String} (h : test.isGrouped)
    (he : (x, e) ∈ test.equations) : e.isGrouped := by
  induction test using equations.induct with
  | case1 y d hy => simp [equations, hy] at he
  | case2 y d hy =>
    simp only [equations, if_neg hy, List.mem_singleton, Prod.mk.injEq] at he
    obtain ⟨-, rfl⟩ := he
    exact (standsAt_binary.1 (standsAt_zero.2 h)).2.2.1
  | case3 a b ihb iha =>
    obtain ⟨-, ha, hb⟩ := standsAt_binary.1 (standsAt_zero.2 h)
    rw [equations, List.mem_append] at he
    exact he.elim (ihb hb.1) (iha ha.1)
  | case4 test h1 h2 => simp [equations.eq_3 _ h1 h2] at he

/-- In an update, an operator in the value stands in parentheses. -/
lemma standsAt_operand {value : Expr} (h : value.isGrouped) : value.operand.StandsAt 6 := by
  cases value with
  | binary op a b => exact standsAt_paren.2 ⟨Nat.le_refl 6, standsAt_zero.2 h⟩
  | _ => exact ⟨h, Nat.le_refl 6⟩

end Expr

namespace Point

lemma Keeps.form {point : Point} {s t : Scope} {e : Expr} (h : point.Keeps s e t) :
    point.form.Keeps s e t := by
  cases h with
  | assign hvs hx hblank he => exact .assign hvs hx hblank he
  | equation hv hfalse hr heq ht => exact .equation hv hfalse hr heq ht
  | result hvs he => exact .result hvs he

lemma isGrouped_of_form {point : Point} (h : point.form.IsGrouped) : point.IsGrouped :=
  fun s e t hkeeps => h s e t hkeeps.form

lemma isGrouped_assign {targets values : List Expr} {define : Bool} {next : PointId}
    (h : ∀ e ∈ values, e.isGrouped) : (assign targets values define next).IsGrouped := by
  rintro s e t ⟨-, -, -, he⟩
  exact h e (List.mem_of_getElem? he)

/-- The target of an update counts only where it is an identifier, and that binds tightly. -/
lemma isGrouped_compound {target value : Expr} (op : BinaryOp) (next : PointId)
    (h : value.isGrouped) : (Stmt.compound target op value next).IsGrouped := by
  rw [Stmt.compound_eq]
  rintro s e t (@⟨_, _, _, _, _, x, _, i, -, hx, -, he⟩)
  have hop : op.precedence < 6 := op.precedence_lt
  obtain ⟨hgrouped, hleast⟩ := Expr.standsAt_operand h
  cases i with
  | zero =>
    obtain rfl : target = .ident x := by simpa using hx
    obtain rfl : .binary op (.ident x) value.operand = e := by simpa using he
    refine Expr.standsAt_zero.1 (Expr.standsAt_binary.2 ⟨Nat.zero_le _, ?_, hgrouped, ?_⟩)
    · exact Expr.standsAt_ident.2 (Nat.le_of_lt hop)
    · exact Nat.le_trans hop hleast
  | succ i => simp at hx

lemma isGrouped_branch {test : Option Expr} {ifTrue ifFalse : PointId}
    (h : ∀ e ∈ test, e.isGrouped) : (branch test ifTrue ifFalse).IsGrouped := by
  intro s e t hkeeps
  cases hkeeps with
  | @equation test _ _ _ _ before x e after _ _ _ _ heq _ =>
    have hmem : (x, e) ∈ test.equations := by simp [heq]
    exact Expr.isGrouped_of_mem_equations (h test rfl) hmem

lemma isGrouped_ret {results : List Expr} (h : ∀ e ∈ results, e.isGrouped) :
    (ret results).IsGrouped := by
  rintro s e t (_ | _ | ⟨-, he⟩)
  exact h e he

end Point

namespace Stmt

/-- Where the expressions of a statement are grouped, so is all that its points keep. -/
lemma isGrouped_of_mem_points {s : Stmt} (h : ∀ e ∈ s.exprs, e.isGrouped) {point : Point}
    (hpoint : point ∈ s.points) : point.IsGrouped := by
  induction s with
  | empty => simp [points] at hpoint
  | expr e =>
    obtain rfl : point = .evaluate e 0 := by simpa [points] using hpoint
    rintro s e t ⟨⟩
  | assign targets values define op =>
    rw [exprs, List.forall_mem_append] at h
    rcases op with _ | op
    · obtain rfl : point = .assign targets values define 0 := by simpa [points] using hpoint
      exact Point.isGrouped_assign h.2
    · by_cases hone : ∃ target value, targets = [target] ∧ values = [value]
      · obtain ⟨target, value, rfl, rfl⟩ := hone
        obtain rfl : point = compound target op value 0 := by simpa [points] using hpoint
        exact Point.isGrouped_compound op 0 (h.2 value List.mem_cons_self)
      · rw [points.eq_4 _ _ _ _ fun target value ht hv => hone ⟨target, value, ht, hv⟩,
          List.mem_singleton] at hpoint
        subst hpoint
        rintro s e t ⟨⟩
  | count target up =>
    obtain rfl := List.mem_singleton.1 (points.eq_5 target up ▸ hpoint)
    exact Point.isGrouped_compound _ 0 rfl
  | nil => simp [points, pointsAll] at hpoint
  | cons s rest ihs ihrest =>
    simp only [exprs, exprsAll, List.forall_mem_append] at h ihrest
    simp only [points, pointsAll, List.mem_append] at hpoint ihrest
    exact hpoint.elim (ihs h.1) (ihrest h.2)
  | ifElse init test body otherwise ihinit ihbody ihelse =>
    simp only [exprs, exprsOption_eq, List.forall_mem_cons, List.forall_mem_append] at h
    simp only [points, pointsOption_eq, List.mem_cons, List.mem_append] at hpoint
    obtain rfl | (hpoint | hpoint) | hpoint := hpoint
    · exact Point.isGrouped_branch (by simpa using h.1)
    · exact ihinit h.2.1.1 hpoint
    · exact ihbody h.2.1.2 hpoint
    · exact ihelse h.2.2 hpoint
  | loop init test post body ihinit ihpost ihbody =>
    simp only [exprs, exprsOption_eq, List.forall_mem_append] at h
    simp only [points, pointsOption_eq, List.mem_cons, List.mem_append] at hpoint
    obtain rfl | (hpoint | hpoint) | hpoint := hpoint
    · exact Point.isGrouped_branch (by simpa using h.1)
    · exact ihinit h.2.1.1 hpoint
    · exact ihpost h.2.1.2 hpoint
    · exact ihbody h.2.2 hpoint
  | jump kind label =>
    obtain rfl : point = .unsupported (.jump kind label) := by simpa [points] using hpoint
    rintro s e t ⟨⟩
  | ret results =>
    obtain rfl : point = .ret results := by simpa [points] using hpoint
    exact Point.isGrouped_ret h
  | labeled label body ih =>
    rw [exprs] at h
    rw [points] at hpoint
    exact ih h hpoint
  | other kind =>
    obtain rfl : point = .unsupported (.other kind) := by simpa [points] using hpoint
    rintro s e t ⟨⟩

lemma isGrouped_of_get?_graph {body : Stmt} (h : ∀ e ∈ body.exprs, e.isGrouped) (p : PointId)
    (point : Point) (hpoint : body.graph.2.get? p = some point) : point.IsGrouped := by
  rcases eq_ret_or_form_mem body hpoint with rfl | hform
  · exact Point.isGrouped_ret (by simp)
  · exact Point.isGrouped_of_form (isGrouped_of_mem_points h hform)

/-- **Grouping.** Evaluation puts no parentheses around the value that it puts in for an identifier.
So the residual of a grouped expression is grouped, from an environment of grouped values, just when
each identifier that is put in has a value that binds as tightly as its place asks for. When a body
of grouped expressions is run from a grouped scope, all scopes that are reached and all residuals
that are returned are grouped just when each expression whose value is bound or returned on the way
is so fitted to the scope that it is evaluated in. -/
theorem isGrouped_iff_fits (e : Expr) (ρ : Env) (body : Stmt) (s : Scope) :
    (e.isGrouped → (∀ x, (ρ x).expr.isGrouped) → ∀ vs, e.eval ρ = .ok vs →
      ((∀ v ∈ vs, v.expr.isGrouped) ↔ e.Fits ρ)) ∧
    ((∀ e ∈ body.exprs, e.isGrouped) → s.IsGrouped →
      let g := body.graph.2
      let start : State := ⟨body.graph.1, s⟩
      (∀ b, Relation.ReflTransGen (fun a b => b ∈ g.following a) start b →
        b.scope.IsGrouped ∧ ∀ vs, g.returned b = .ok (some vs) → ∀ v ∈ vs, v.expr.isGrouped) ↔
      ∀ a, Relation.ReflTransGen (fun a b => b ∈ g.following a) start a → g.FitsAt a) := by
  refine ⟨fun he hρ vs hvs => ?_, fun h hs =>
    FlowGraph.isGrouped_iff_fitsAt (isGrouped_of_get?_graph h) hs⟩
  rw [Expr.eval_eq] at hvs
  obtain ⟨v, hv, rfl⟩ : ∃ v, e.value ρ = .ok v ∧ [v] = vs := by simpa [bind_eq_ok] using hvs
  simpa using Expr.isGrouped_expr_iff hρ he hv

/-- With `a + b` for `x`, the residual of `x * c` multiplies `b` only, and so does what
`x = a + b; return x * c` returns. -/
theorem not_isGrouped_product :
    let sum : Expr := .binary .add (.name "a") (.name "b")
    let e : Expr := .binary .mul (.name "x") (.name "c")
    let residual : Expr := .binary .mul sum (.name "c")
    let s := Scope.ofList [("x", .unknown sum)]
    let body : Stmt := .block [.assign [.name "x"] [sum] false none, .ret [e]]
    (e.isGrouped ∧ s.IsGrouped ∧ e.eval s.lookup = .ok [.unknown residual]) ∧
      ((∀ e ∈ body.exprs, e.isGrouped) ∧ ∃ b,
        Relation.ReflTransGen (fun a b => b ∈ body.graph.2.following a) ⟨body.graph.1, {}⟩ b ∧
          body.graph.2.returned b = .ok (some [.unknown residual])) ∧
      residual.isGrouped = false := by
  intro sum e residual s body
  have hgraph := graph_assign_and_ret [.name "x"] [sum] [e]
  have hs : s.IsGrouped := Scope.isGrouped_bind.2 ⟨by decide, by simp [Scope.IsGrouped]⟩
  refine ⟨⟨by decide, hs, rfl⟩, ⟨by decide, ⟨1, s⟩, .single ?_, ?_⟩, by decide⟩
  · rw [hgraph]
    exact List.mem_singleton.2 rfl
  · rw [hgraph]
    rfl

/-- The product is grouped where `x` stands in parentheses. -/
theorem isGrouped_iff_fits_product :
    let sum : Expr := .binary .add (.name "a") (.name "b")
    let e : Expr := .binary .mul (.paren (.name "x")) (.name "c")
    let residual : Expr := .binary .mul (.paren sum) (.name "c")
    let s := Scope.ofList [("x", .unknown sum)]
    let body : Stmt := .block [.assign [.name "x"] [sum] false none, .ret [e]]
    (e.eval s.lookup = .ok [.unknown residual] ∧ ∀ v ∈ [Value.unknown residual], v.expr.isGrouped) ∧
      ∀ b, Relation.ReflTransGen (fun a b => b ∈ body.graph.2.following a) ⟨body.graph.1, {}⟩ b →
        b.scope.IsGrouped ∧
          ∀ vs, body.graph.2.returned b = .ok (some vs) → ∀ v ∈ vs, v.expr.isGrouped := by
  intro sum e residual s body
  obtain ⟨heval, hrun⟩ := isGrouped_iff_fits e s.lookup body {}
  have hgraph := graph_assign_and_ret [.name "x"] [sum] [e]
  have hs : s.IsGrouped := Scope.isGrouped_bind.2 ⟨by decide, by simp [Scope.IsGrouped]⟩
  have he : e.eval s.lookup = .ok [.unknown residual] := rfl
  have hfits : e.Fits s.lookup := by decide
  refine ⟨⟨he, (heval (by decide) hs.lookup _ he).2 hfits⟩,
    (hrun (by decide) (by simp [Scope.IsGrouped])).2 fun a ha => ?_⟩
  -- the run has two states
  have hcases : a = ⟨2, {}⟩ ∨ a = ⟨1, s⟩ := by
    induction ha with
    | refl => exact .inl (by rw [hgraph])
    | tail _ hab ih =>
      rw [hgraph] at hab
      rcases ih with rfl | rfl
      · exact .inr (List.mem_singleton.1 hab)
      · exact absurd hab List.not_mem_nil
  rw [hgraph]
  intro point hpoint d t hkeeps
  rcases hcases with rfl | rfl
  · obtain rfl : .assign [.name "x"] [sum] false 1 = point := Option.some.inj hpoint
    cases hkeeps with
    | assign _ _ _ hd =>
      obtain rfl := List.mem_singleton.1 (List.mem_of_getElem? hd)
      decide
  · obtain rfl : .ret [e] = point := Option.some.inj hpoint
    cases hkeeps with
    | result _ hd =>
      obtain rfl := List.mem_singleton.1 hd
      exact hfits

end Stmt

end Staged
