import Staged.Graph.Flow
import Staged.Proofs.Renaming.Graph
import Staged.Proofs.Step.Decided

/-!
Steps under other names. Two names may become one as long as neither takes a value while the other is
still needed: then a scope and the scope under the new names agree on all that is still needed, and a
step keeps it so.
-/

namespace Staged

/-! ### Names that are still needed -/

namespace Expr

/-- The identifiers that refining with a test binds. -/
def equated : Expr → List Ident
  | .binary .eql (.ident x) _ => [x]
  | .binary .logAnd a b => a.equated ++ b.equated
  | _ => []

end Expr

namespace Point

/-- The point reads the name `z`. -/
def Reads (point : Point) (z : String) : Prop := ∃ e ∈ point.reads, ∃ x ∈ e.idents, x.name = z

/-- The point gives the name `z` a value. -/
def Sets (point : Point) (z : String) : Prop :=
  ∃ x ∈ point.writes, x.isBlank = false ∧ x.name = z

lemma Sets.exists_target {targets values : List Expr} {define : Bool} {next : PointId} {z : String}
    (h : (assign targets values define next).Sets z) :
    ∃ x, .ident x ∈ targets ∧ x.isBlank = false ∧ x.name = z := by
  obtain ⟨x, hx, hb, hname⟩ := h
  simp only [writes, List.mem_filterMap] at hx
  obtain ⟨target, htarget, hx⟩ := hx
  cases target with
  | ident y =>
    obtain rfl := Option.some.inj hx
    exact ⟨y, htarget, hb, hname⟩
  | _ => simp at hx

lemma not_sets {point : Point} (h : point.writes = []) (z : String) : ¬ point.Sets z := by
  simp [Sets, h]

end Point

namespace FlowGraph

/-- From the point on, `z` may be read before it is given a value. -/
inductive Live (g : FlowGraph) (z : String) : PointId → Prop where
  | read {p point} (hp : g.get? p = some point) (hread : point.Reads z) : Live g z p
  | pass {p q point} (hp : g.get? p = some point) (hq : q ∈ point.successors)
      (hset : ¬ point.Sets z) (hz : Live g z q) : Live g z p

lemma live_iff {g : FlowGraph} {p : PointId} {point : Point} {z : String}
    (hp : g.get? p = some point) :
    g.Live z p ↔ point.Reads z ∨ ¬ point.Sets z ∧ ∃ q ∈ point.successors, g.Live z q := by
  constructor
  · intro h
    cases h with
    | read hp' hread =>
      obtain rfl := Option.some.inj (hp'.symm.trans hp)
      exact .inl hread
    | pass hp' hq hset hz =>
      obtain rfl := Option.some.inj (hp'.symm.trans hp)
      exact .inr ⟨hset, _, hq, hz⟩
  · rintro (hread | ⟨hset, q, hq, hz⟩)
    · exact .read hp hread
    · exact .pass hp hq hset hz

/-- Where two names become one, neither is given a value while the other is still needed. The
equations of a test bind their names one after the other, so what the test reads is needed as well. -/
structure Apart (g : FlowGraph) (f : Renaming) : Prop where
  assign : ∀ p targets values define next, g.get? p = some (.assign targets values define next) →
    ∀ x, .ident x ∈ targets → ∀ z, g.Live z next → f z = f x.name → z = x.name
  branch : ∀ p test ifTrue ifFalse, g.get? p = some (.branch (some test) ifTrue ifFalse) →
    ∀ x ∈ test.equated, ∀ z, (∃ y ∈ test.idents, y.name = z) ∨ g.Live z ifTrue →
      f z = f x.name → z = x.name

end FlowGraph

/-! ### Scopes under other names -/

namespace Scope

/-- As far as the names in `N` go, `t` is the scope `s` under the new names. -/
def Renamed (f : Renaming) (N : String → Prop) (s t : Scope) : Prop :=
  ∀ z, N z → t.lookup (f z) = (s.lookup z).rename f

variable {f : Renaming} {N N' : String → Prop} {s t : Scope}

lemma Renamed.mono (h : Renamed f N s t) (hN : ∀ z, N' z → N z) : Renamed f N' s t :=
  fun z hz => h z (hN z hz)

lemma Renamed.bind (h : Renamed f N s t) {x : String} (hx : ∀ z, N z → f z = f x → z = x)
    (v : Value) : Renamed f N (s.bind x v) (t.bind (f x) (v.rename f)) := by
  intro z hz
  by_cases hzx : z = x
  · simp [hzx]
  · have hne : f z ≠ f x := fun heq => hzx (hx z hz heq)
    simp [hzx, hne, h z hz]

/-- A name that no other target shares takes the renamed value. -/
lemma assigned_rename (f : Renaming) {targets : List Expr} {z : String}
    (hz : ∀ x, .ident x ∈ targets → f z = f x.name → z = x.name) (values : List Value) :
    assigned (targets.map (Expr.rename f)) (values.map (Value.rename f)) (f z) =
      (assigned targets values z).map (Value.rename f) := by
  induction targets generalizing values with
  | nil => rfl
  | cons target targets ih =>
    have ih := ih (fun x hx => hz x (.tail _ hx)) values.tail
    cases target with
    | ident x =>
      have hname : f x.name = f z ↔ x.name = z :=
        ⟨fun heq => (hz x List.mem_cons_self heq.symm).symm, fun heq => by rw [heq]⟩
      simp only [List.map_cons, Expr.rename, assigned, ← List.map_tail, ih, Ident.isBlank_rename,
        Ident.name_rename, hname, Option.map_or]
      congr 1
      split
      · cases values <;> simp
      · rfl
    | _ => simpa only [List.map_cons, Expr.rename, assigned, ← List.map_tail] using ih

lemma Renamed.assign (h : Renamed f N s t) {targets : List Expr}
    (hN : ∀ z, N' z → (∀ x, .ident x ∈ targets → x.isBlank = false → x.name ≠ z) → N z)
    (hx : ∀ x, .ident x ∈ targets → ∀ z, N' z → f z = f x.name → z = x.name)
    (values : List Value) :
    Renamed f N' (s.assign targets values)
      (t.assign (targets.map (Expr.rename f)) (values.map (Value.rename f))) := by
  intro z hz
  rw [lookup_assign, lookup_assign, assigned_rename f fun x hmem => hx x hmem z hz]
  rcases hv : assigned targets values z with _ | v
  · have hz : N z := by
      refine hN z hz fun x hmem hb hname => ?_
      have hsome := isSome_assigned values hmem hb
      simp [hname, hv] at hsome
    simpa using h z hz
  · simp

/-- Refining binds the names of its equations only, so it is enough that these are apart from what
the test reads and from what is needed afterwards. -/
lemma Renamed.refine (h : Renamed f N s t) {test : Expr} (hread : ∀ x ∈ test.idents, N x.name)
    (hx : ∀ x ∈ test.equated, ∀ z, N z → f z = f x.name → z = x.name) :
    SameResult (Renamed f N) (test.refine s) ((test.rename f).refine t) := by
  fun_induction Expr.refine test s generalizing t with
  | case1 x e s hb =>
    have hb' : ((x.rename f).isBlank || (x.rename f).isBoolConstant) = true := by simpa using hb
    simp only [Expr.rename, Expr.refine, hb', if_true]
    exact .ok h
  | case2 x e s hb =>
    have hb' : ¬ ((x.rename f).isBlank || (x.rename f).isBoolConstant) = true := by simpa using hb
    have hvalue : (e.rename f).value t.lookup = Value.rename f <$> e.value s.lookup :=
      Expr.value_rename fun y hy => h y.name (hread y (by simp [Expr.idents, hy]))
    simp only [Expr.rename, Expr.refine, if_neg hb', hvalue]
    refine (SameResult.map _ _).bind fun v w hvw => ?_
    subst hvw
    exact .ok (h.bind (hx x List.mem_cons_self) v)
  | case3 a b s ihb iha =>
    simp only [Expr.idents, List.mem_append] at hread
    simp only [Expr.equated, List.mem_append] at hx
    simp only [Expr.rename, Expr.refine]
    refine (ihb h (fun x hx => hread x (.inr hx)) fun x hmem => hx x (.inr hmem)).bind ?_
    intro s₁ t₁ h₁
    exact iha s₁ h₁ (fun x hx => hread x (.inl hx)) fun x hmem => hx x (.inl hmem)
  | case4 test s h1 h2 =>
    rw [Expr.refine]
    · exact .ok h
    · intro x e heq
      obtain ⟨a, b, rfl, ha⟩ := Expr.rename_eq_binary heq
      obtain ⟨y, rfl⟩ := Expr.rename_eq_ident ha
      exact h1 y b rfl
    · intro a b heq
      obtain ⟨a, b, rfl, -⟩ := Expr.rename_eq_binary heq
      exact h2 a b rfl

end Scope

/-! ### Steps -/

namespace State

/-- The state `b` is the state `a` under the new names, as far as names are still needed. -/
structure Renamed (f : Renaming) (g : FlowGraph) (a b : State) : Prop where
  point_eq : a.point = b.point
  scope : a.scope.Renamed f (g.Live · a.point) b.scope

end State

namespace FlowGraph

variable {f : Renaming} {g : FlowGraph} {p : PointId} {s t : Scope}

/-- A step that binds nothing. -/
lemma renamed_next {point : Point} {q : PointId} (hp : g.get? p = some point)
    (hq : q ∈ point.successors) (hset : point.writes = []) (h : s.Renamed f (g.Live · p) t) :
    State.Renamed f g ⟨q, s⟩ ⟨q, t⟩ :=
  ⟨rfl, h.mono fun z hz => .pass hp hq (Point.not_sets hset z) hz⟩

lemma step_assign_renamed (hapart : g.Apart f) {targets values : List Expr} {define : Bool}
    {next : PointId} (hp : g.get? p = some (.assign targets values define next))
    (h : s.Renamed f (g.Live · p) t) :
    SameResult (List.Forall₂ (State.Renamed f g)) ((Point.assign targets values define next).step s)
      (((Point.assign targets values define next).rename f).step t) := by
  have hvalues : Expr.evalArgs t.lookup (values.map (Expr.rename f)) =
      List.map (Value.rename f) <$> Expr.evalArgs s.lookup values := by
    refine Expr.evalArgs_rename fun e he x hx => h x.name (.read hp ⟨e, ?_, x, hx, rfl⟩)
    exact List.mem_append_left _ he
  simp only [Point.rename, Point.step, hvalues]
  refine (SameResult.map _ _).bind fun vs ws hws => ?_
  subst hws
  refine .ok (.cons ⟨rfl, h.assign (fun z hz hset => ?_) ?_ vs⟩ .nil)
  · refine .pass hp (by simp [Point.successors]) ?_ hz
    intro hsets
    obtain ⟨x, hx, hb, hname⟩ := hsets.exists_target
    exact hset x hx hb hname
  · exact hapart.assign p _ _ _ _ hp

lemma step_branch_renamed (hapart : g.Apart f) {test : Expr} {ifTrue ifFalse : PointId}
    (hp : g.get? p = some (.branch (some test) ifTrue ifFalse)) (h : s.Renamed f (g.Live · p) t) :
    SameResult (List.Forall₂ (State.Renamed f g)) ((Point.branch (some test) ifTrue ifFalse).step s)
      (((Point.branch (some test) ifTrue ifFalse).rename f).step t) := by
  have hvalue : (test.rename f).value t.lookup = Value.rename f <$> test.value s.lookup :=
    Expr.value_rename fun x hx =>
      h x.name (.read hp ⟨test, by simp [Point.reads], x, hx, rfl⟩)
  have hneeded : s.Renamed f (fun z => (∃ y ∈ test.idents, y.name = z) ∨ g.Live z ifTrue) t := by
    refine h.mono fun z hz => ?_
    obtain ⟨y, hy, hname⟩ | hz := hz
    · exact .read hp ⟨test, by simp [Point.reads], y, hy, hname⟩
    · exact .pass hp (by simp [Point.successors]) (Point.not_sets rfl z) hz
  have hrefine := hneeded.refine (fun x hx => .inl ⟨x, hx, rfl⟩)
    (hapart.branch p test ifTrue ifFalse hp)
  have hfalse : State.Renamed f g ⟨ifFalse, s⟩ ⟨ifFalse, t⟩ :=
    renamed_next hp (by simp [Point.successors]) rfl h
  simp only [Point.rename, Option.map_some, Point.step, hvalue]
  refine (SameResult.map _ _).bind fun v w hvw => ?_
  subst hvw
  cases v with
  | bool b =>
    cases b with
    | false => exact .ok (.cons hfalse .nil)
    | true =>
      exact hrefine.bind fun _ _ htrue => .ok (.cons ⟨rfl, htrue.mono fun _ => .inr⟩ .nil)
  | unknown | int | string =>
    exact hrefine.bind fun _ _ htrue =>
      .ok (.cons ⟨rfl, htrue.mono fun _ => .inr⟩ (.cons hfalse .nil))

/-- A step under the new names does the same. -/
theorem step_renamed (hapart : g.Apart f) {point : Point} (hp : g.get? p = some point)
    (h : s.Renamed f (g.Live · p) t) :
    SameResult (List.Forall₂ (State.Renamed f g)) (point.step s) ((point.rename f).step t) := by
  cases point with
  | evaluate e next =>
    exact .ok (.cons (renamed_next hp (by simp [Point.successors]) rfl h) .nil)
  | assign targets values define next => exact step_assign_renamed hapart hp h
  | branch test ifTrue ifFalse =>
    cases test with
    | none =>
      exact .ok (.cons (renamed_next hp (by simp [Point.successors]) rfl h) .nil)
    | some test => exact step_branch_renamed hapart hp h
  | ret | unsupported => exact .ok .nil

end FlowGraph

end Staged
