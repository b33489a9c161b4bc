import Staged.Proofs.Step.Decided

/-!
Assignments of several values at once. All values are computed before the first target is bound, so
a name that is a target and stands in a value as well gives its old value. Where a name is a target
more than once, the last one counts.
-/

namespace Staged

namespace Scope

variable {targets : List Expr} {x : Ident} {i : Nat}

/-- The identifier `x` is the target at position `i`, and no target behind it has its name. -/
structure LastTarget (targets : List Expr) (i : Nat) (x : Ident) : Prop where
  target : targets[i]? = some (.ident x)
  not_blank : x.isBlank = false
  later : ∀ y, .ident y ∈ targets.drop (i + 1) → y.name ≠ x.name

/-- The last target of a name gives the name its value, if there is one at its position. -/
lemma LastTarget.assigned_eq (h : LastTarget targets i x) (values : List Value) :
    assigned targets values x.name = some (values[i]?.getD (.free x.name)) := by
  induction targets generalizing i values with
  | nil => simpa using h.target
  | cons target targets ih =>
    cases i with
    | zero =>
      obtain rfl : target = .ident x := by simpa using h.target
      have hnone : assigned targets values.tail x.name = none := by
        refine Option.eq_none_iff_forall_ne_some.2 fun v hv => ?_
        obtain ⟨j, y, hy, -, hname, -⟩ := exists_of_assigned_eq_some hv
        exact h.later y (List.mem_of_getElem? hy) hname
      simp [hnone, h.not_blank, List.head?_eq_getElem?]
    | succ i =>
      have hlast : LastTarget targets i x := ⟨by simpa using h.target, h.not_blank, h.later⟩
      have htail := ih hlast values.tail
      rw [List.getElem?_tail] at htail
      cases target with
      | ident y => simp [htail]
      | _ => exact htail

/-- A name that is no target takes no value. -/
lemma assigned_eq_none {y : String} (values : List Value)
    (h : ∀ x, .ident x ∈ targets → x.isBlank = false → x.name ≠ y) :
    assigned targets values y = none := by
  refine Option.eq_none_iff_forall_ne_some.2 fun v hv => ?_
  obtain ⟨i, x, hx, hblank, hname, -⟩ := exists_of_assigned_eq_some hv
  exact h x (List.mem_of_getElem? hx) hblank hname

end Scope

namespace FlowGraph

variable {g : FlowGraph} {p next : PointId} {targets values : List Expr} {define : Bool}

/-- An assignment fails if and only if one of the values does. -/
lemma step_assign_fails_iff (hp : g.get? p = some (.assign targets values define next))
    (s : Scope) :
    (∃ err, g.step ⟨p, s⟩ = .error err) ↔ ∃ e ∈ values, ∃ err, e.value s.lookup = .error err := by
  have hstep : g.step ⟨p, s⟩ = do
      return [⟨next, s.assign targets (← values.mapM (Expr.value s.lookup))⟩] := by
    simp only [step, hp, Point.step, Expr.evalArgs_eq]
  rw [hstep]
  constructor
  · rintro ⟨err, herr⟩
    have hvalues : values.mapM (Expr.value s.lookup) = .error err := by
      rcases h : values.mapM (Expr.value s.lookup) with err' | vs
      · simpa [h] using herr
      · simp [h] at herr
    obtain ⟨before, e, after, rfl, -, he⟩ := mapM_eq_error.1 hvalues
    exact ⟨e, by simp, err, he⟩
  · rintro ⟨e, he, err, herr⟩
    rcases h : values.mapM (Expr.value s.lookup) with err' | vs
    · exact ⟨err', rfl⟩
    · -- otherwise the value of `e` would be among the results
      obtain ⟨i, hi⟩ := List.getElem?_of_mem he
      obtain ⟨v, -, hv⟩ := exists_getElem?_of_mapM_eq_ok h hi
      simp [herr] at hv

/-- **Assignment is simultaneous.** Where all values can be computed, an assignment leads to one
state. There each name that is a target has the value for its last target, computed before anything
is bound, and stands for itself if there is none; all other names are as before. If one of the
values cannot be computed, the assignment leads to no state. -/
theorem assign_simultaneous (hp : g.get? p = some (.assign targets values define next))
    (s : Scope) :
    ((∀ e ∈ values, ∃ v, e.value s.lookup = .ok v) → ∃ t, g.step ⟨p, s⟩ = .ok [⟨next, t⟩] ∧
      (∀ i x, Scope.LastTarget targets i x →
        values[i]?.elim (.ok (.free x.name)) (Expr.value s.lookup) = .ok (t.lookup x.name)) ∧
      ∀ y, (∀ x, .ident x ∈ targets → x.isBlank = false → x.name ≠ y) →
        t.lookup y = s.lookup y) ∧
    ((∃ err, g.step ⟨p, s⟩ = .error err) ↔
      ∃ e ∈ values, ∃ err, e.value s.lookup = .error err) := by
  refine ⟨fun hvalues => ?_, step_assign_fails_iff hp s⟩
  rcases hstep : g.step ⟨p, s⟩ with err | states
  · obtain ⟨e, he, err', herr⟩ := (step_assign_fails_iff hp s).1 ⟨err, hstep⟩
    obtain ⟨v, hv⟩ := hvalues e he
    simp [herr] at hv
  · simp only [step, hp, Point.step, Expr.evalArgs_eq, bind_eq_ok, pure_eq_ok, Except.ok.injEq]
      at hstep
    obtain ⟨vs, hvs, rfl⟩ := hstep
    refine ⟨_, rfl, fun i x hlast => ?_, fun y hy => ?_⟩
    · rw [Scope.lookup_assign, hlast.assigned_eq, Option.getD_some]
      rcases hi : values[i]? with _ | e
      · have hlength : vs.length = values.length := (mapM_eq_ok.1 hvs).length_eq.symm
        have hnone : vs[i]? = none := by
          rw [List.getElem?_eq_none_iff] at hi ⊢
          omega
        simp [hnone]
      · obtain ⟨v, hv, hev⟩ := exists_getElem?_of_mapM_eq_ok hvs hi
        simp [hv, hev]
    · rw [Scope.lookup_assign, Scope.assigned_eq_none vs hy, Option.getD_none]

/-- In `a, b, _, a, d = b, a, f, c` the names `a` and `b` would change places, but the last target
of `a` takes the value of `c`; there is no value for `d`, and `c` stays as it is. -/
theorem assign_simultaneous_repeated :
    let targets := ["a", "b", "_", "a", "d"].map Expr.name
    let g : FlowGraph := ⟨#[.assign targets (["b", "a", "f", "c"].map .name) false 7]⟩
    let s := Scope.ofList [("a", .int 1), ("b", .int 2), ("c", .int 3), ("d", .int 4)]
    ∃ t, g.step ⟨0, s⟩ = .ok [⟨7, t⟩] ∧ t.lookup "a" = .int 3 ∧ t.lookup "b" = .int 1 ∧
      t.lookup "d" = .free "d" ∧ t.lookup "c" = .int 3 := by
  intro targets g s
  have hvalues : ∀ e ∈ ["b", "a", "f", "c"].map Expr.name, ∃ v, e.value s.lookup = .ok v := by
    intro e he
    obtain ⟨x, -, rfl⟩ := List.mem_map.1 he
    exact ⟨_, rfl⟩
  obtain ⟨t, hstep, htargets, hothers⟩ := (assign_simultaneous (g := g) (p := 0) rfl s).1 hvalues
  have ha := htargets 3 { name := "a" } ⟨rfl, by decide, by simp [targets, Expr.name]⟩
  have hb := htargets 1 { name := "b" } ⟨rfl, by decide, by simp [targets, Expr.name]⟩
  have hd := htargets 4 { name := "d" } ⟨rfl, by decide, by simp [targets]⟩
  have hc := hothers "c" (by simp [targets, Expr.name])
  exact ⟨t, hstep, (Except.ok.inj ha).symm, (Except.ok.inj hb).symm, (Except.ok.inj hd).symm, hc⟩

end FlowGraph

end Staged
