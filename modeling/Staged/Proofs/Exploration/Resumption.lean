import Staged.Exploration
import Staged.Proofs.Step.Resumption

/-!
Explorations under less and under more knowledge. The frontiers of the better informed exploration
are related, state by state, to sublists of the frontiers of the other one; so it stays within the
same bounds and finds some of the same outcomes.
-/

namespace Staged

/-- What an outcome comes to once `ρ` is known. -/
def Outcome.resume (ρ : Env) : Outcome → Except EvalError Outcome
  | .returned point values => do return .returned point (← values.mapM (Value.resume ρ))
  | .stopped point => .ok (.stopped point)

lemma sublistForall₂_append {α β : Type} {R : α → β → Prop} {as as' : List α} {bs bs' : List β}
    (h : List.SublistForall₂ R as bs) (h' : List.SublistForall₂ R as' bs') :
    List.SublistForall₂ R (as ++ as') (bs ++ bs') := by
  obtain ⟨cs, hcs, hsub⟩ := List.sublistForall₂_iff.1 h
  obtain ⟨cs', hcs', hsub'⟩ := List.sublistForall₂_iff.1 h'
  exact List.sublistForall₂_iff.2 ⟨cs ++ cs', List.rel_append hcs hcs', hsub.append hsub'⟩

lemma sublistForall₂_length_le {α β : Type} {R : α → β → Prop} {as : List α} {bs : List β}
    (h : List.SublistForall₂ R as bs) : as.length ≤ bs.length := by
  obtain ⟨cs, hcs, hsub⟩ := List.sublistForall₂_iff.1 h
  exact hcs.length_eq.trans_le hsub.length_le

namespace FlowGraph

/-- No point of the graph leaves an identifier without a value. -/
def Covered (g : FlowGraph) : Prop := ∀ p point, g.get? p = some point → point.Covered

variable {g : FlowGraph} {r : Scope}

/-- The outcomes `bs` are some of the outcomes `as` with `r` known, in the same order. -/
abbrev OutcomesOf (r : Scope) (bs as : List Outcome) : Prop :=
  List.SublistForall₂ (fun b a => a.resume r.lookup = .ok b) bs as

/-- The states `bs` are some of the states `as` with `r` known, in the same order. -/
abbrev StatesOf (r : Scope) (bs as : List State) : Prop :=
  List.SublistForall₂ (fun b a => a.CompletedBy r b) bs as

lemma OutcomesOf.sublist_map {as bs : List Outcome} (h : OutcomesOf r bs as) :
    (bs.map .ok).Sublist (as.map (Outcome.resume r.lookup)) := by
  induction h with
  | nil => exact List.nil_sublist _
  | cons hba _ ih =>
    rw [List.map_cons, List.map_cons, hba]
    exact ih.cons_cons _
  | cons_right _ ih => exact ih.cons _

lemma expand_completedBy (covered : g.Covered) {a b : State} (h : a.CompletedBy r b)
    {x y : Expansion} (ha : g.expand a = .ok x) (hb : g.expand b = .ok y) :
    OutcomesOf r y.outcome?.toList x.outcome?.toList ∧ StatesOf r y.states x.states := by
  obtain ⟨p, s⟩ := a
  obtain ⟨q, t⟩ := b
  obtain ⟨rfl, h⟩ : q = p ∧ s.CompletedBy r t := h
  rcases hq : g.get? q with _ | point
  · simp only [expand, hq, Except.ok.injEq] at ha hb
    rw [← ha, ← hb]
    exact ⟨.cons rfl .nil, .nil⟩
  cases point with
  | ret results =>
    simp only [expand, hq, bind_eq_ok, pure_eq_ok, Except.ok.injEq] at ha hb
    obtain ⟨vs, hvs, rfl⟩ := ha
    obtain ⟨ws, hws, rfl⟩ := hb
    have hresume := (h.evalArgs_eq_ok hvs).trans hws
    refine ⟨.cons ?_ .nil, .nil⟩
    simp [Outcome.resume, hresume]
  | unsupported stmt =>
    simp only [expand, hq, Except.ok.injEq] at ha hb
    rw [← ha, ← hb]
    exact ⟨.cons rfl .nil, .nil⟩
  | evaluate | assign | branch =>
    simp only [expand, hq, bind_eq_ok, pure_eq_ok, Except.ok.injEq] at ha hb
    obtain ⟨as, has, rfl⟩ := ha
    obtain ⟨bs, hbs, rfl⟩ := hb
    exact ⟨.nil, Point.step_completedBy (covered q _ hq) h has hbs⟩

lemma mapM_expand_completedBy (covered : g.Covered) {as bs : List State}
    (h : StatesOf r bs as) {xs ys : List Expansion} (ha : as.mapM g.expand = .ok xs)
    (hb : bs.mapM g.expand = .ok ys) :
    OutcomesOf r (ys.filterMap Expansion.outcome?) (xs.filterMap Expansion.outcome?) ∧
      StatesOf r (ys.flatMap Expansion.states) (xs.flatMap Expansion.states) := by
  have hcons (x : Expansion) (xs : List Expansion) : (x :: xs).filterMap Expansion.outcome? =
      x.outcome?.toList ++ xs.filterMap Expansion.outcome? := by
    rw [List.filterMap_cons]
    cases x.outcome? <;> rfl
  induction h generalizing xs ys with
  | nil =>
    rw [List.mapM_nil, pure_eq_ok, Except.ok.injEq] at hb
    subst hb
    exact ⟨.nil, .nil⟩
  | @cons b a bs as hba _ ih =>
    simp only [List.mapM_cons, bind_eq_ok, pure_eq_ok, Except.ok.injEq] at ha hb
    obtain ⟨x, hx, xs, hxs, rfl⟩ := ha
    obtain ⟨y, hy, ys, hys, rfl⟩ := hb
    have hhead := expand_completedBy covered hba hx hy
    have htail := ih hxs hys
    rw [hcons, hcons, List.flatMap_cons, List.flatMap_cons]
    exact ⟨sublistForall₂_append hhead.1 htail.1, sublistForall₂_append hhead.2 htail.2⟩
  | @cons_right a bs as _ ih =>
    simp only [List.mapM_cons, bind_eq_ok, pure_eq_ok, Except.ok.injEq] at ha
    obtain ⟨x, hx, xs, hxs, rfl⟩ := ha
    have htail := ih hxs hb
    rw [hcons, List.flatMap_cons]
    exact ⟨sublistForall₂_append .nil htail.1, sublistForall₂_append .nil htail.2⟩

/-- A frontier that fits into the bounds is expanded as a whole. -/
lemma exploreFrom_cons {length states : Nat} {a : State} {as : List State} {u x : Exploration}
    (h : g.exploreFrom (length + 1) states (a :: as) u = .ok x) (fits : as.length < states) :
    ∃ xs, (a :: as).mapM g.expand = .ok xs ∧
      g.exploreFrom length (states - (as.length + 1)) (xs.flatMap Expansion.states)
        { outcomes := u.outcomes ++ xs.filterMap Expansion.outcome?
          visited := u.visited + (as.length + 1) } = .ok x := by
  have hall : (a :: as).take states = a :: as := List.take_of_length_le fits
  rw [exploreFrom] at h
  simp only [hall] at h
  split at h
  · simp at h
  · next xs hxs =>
    rw [if_neg (by omega)] at h
    exact ⟨xs, hxs, by simpa using h⟩

/-- An exploration that no bound cuts short has room for all of its frontier. -/
lemma fits_of_not_truncated {length states : Nat} {a : State} {as : List State}
    {u x : Exploration} (h : g.exploreFrom length states (a :: as) u = .ok x)
    (hx : x.truncated = false) : 0 < length ∧ as.length < states := by
  cases length with
  | zero =>
    rw [exploreFrom, Except.ok.injEq] at h
    rw [← h] at hx
    simp at hx
  | succ length =>
    refine ⟨Nat.succ_pos _, Nat.lt_of_not_le fun hle => ?_⟩
    rw [exploreFrom] at h
    split at h
    · simp at h
    · rw [if_pos hle, Except.ok.injEq] at h
      rw [← h] at hx
      simp at hx

lemma exploreFrom_nil {length states : Nat} {u : Exploration} :
    g.exploreFrom length states [] u = .ok u := by
  cases length <;> rw [exploreFrom]

/-- **Frontiers.** The relation between two frontiers is kept until both are empty. -/
theorem exploreFrom_completedBy (covered : g.Covered) {length states states' : Nat}
    {as bs : List State} {u v x y : Exploration} (h : StatesOf r bs as)
    (hstates : states ≤ states') (hu : OutcomesOf r v.outcomes.toList u.outcomes.toList)
    (hv : v.truncated = false) (ha : g.exploreFrom length states as u = .ok x)
    (hb : g.exploreFrom length states' bs v = .ok y) (hx : x.truncated = false) :
    y.truncated = false ∧ OutcomesOf r y.outcomes.toList x.outcomes.toList := by
  induction length generalizing states states' as bs u v with
  | zero =>
    cases as with
    | nil =>
      cases h
      rw [exploreFrom_nil, Except.ok.injEq] at ha hb
      exact ⟨hb ▸ hv, ha ▸ hb ▸ hu⟩
    | cons a as => exact absurd (fits_of_not_truncated ha hx).1 (Nat.lt_irrefl 0)
  | succ length ih =>
    cases as with
    | nil =>
      cases h
      rw [exploreFrom_nil, Except.ok.injEq] at ha hb
      exact ⟨hb ▸ hv, ha ▸ hb ▸ hu⟩
    | cons a as =>
      have hfits := (fits_of_not_truncated ha hx).2
      obtain ⟨xs, hxs, ha⟩ := exploreFrom_cons ha hfits
      have hle := sublistForall₂_length_le h
      cases bs with
      | nil =>
        -- the better informed exploration is over, and its outcomes stay as they are
        rw [exploreFrom_nil, Except.ok.injEq] at hb
        refine ih .nil (Nat.le_refl _) ?_ hv ha (hb ▸ exploreFrom_nil)
        simpa using sublistForall₂_append hu .nil
      | cons b bs =>
        simp only [List.length_cons] at hle
        obtain ⟨ys, hys, hb⟩ := exploreFrom_cons hb (by omega)
        obtain ⟨hout, hnext⟩ := mapM_expand_completedBy covered h hxs hys
        refine ih hnext (by omega) ?_ rfl ha hb
        simpa using sublistForall₂_append hu hout

/-- **Specialization first.** Where a scope `t` holds what `s` comes to once `r` is known, exploring
with `t` stays within the bounds that exploring with `s` stays within, and its outcomes are some of
those found with `s`, in the same order and with `r` known. -/
theorem explore_resume {limits : Limits} {entry : PointId} {s t : Scope} (covered : g.Covered)
    (composed : s.Composes r t) {x y : Exploration} (hx : g.explore limits ⟨entry, s⟩ = .ok x)
    (whole : x.truncated = false) (hy : g.explore limits ⟨entry, t⟩ = .ok y) :
    y.truncated = false ∧
      List.Sublist (y.outcomes.toList.map .ok)
        (x.outcomes.toList.map (Outcome.resume r.lookup)) := by
  have hstart : StatesOf r [⟨entry, t⟩] [⟨entry, s⟩] := .cons ⟨rfl, composed.completedBy⟩ .nil
  obtain ⟨hfull, hout⟩ :=
    exploreFrom_completedBy covered hstart (Nat.le_refl _) .nil rfl hx hy whole
  exact ⟨hfull, hout.sublist_map⟩

/-- `if x == y { return x } else { return z }`, where `y` is known first and `x` and `z` later. -/
theorem explore_resume_decided :
    let g : FlowGraph := ⟨#[.ret [.name "x"], .ret [.name "z"],
      .branch (some (.binary .eql (.name "x") (.name "y"))) 0 1]⟩
    let s := Scope.ofList [("y", .int 5)]
    let r := Scope.ofList [("x", .int 5), ("z", .bool true)]
    let x : Exploration :=
      { outcomes := #[.returned 0 [.int 5], .returned 1 [.free "z"]], visited := 3 }
    let y : Exploration := { outcomes := #[.returned 0 [.int 5]], visited := 2 }
    g.Covered ∧ s.Composes r (s.before r) ∧ g.explore ⟨10, 4, false⟩ ⟨2, s⟩ = .ok x ∧
      x.truncated = false ∧ g.explore ⟨10, 4, false⟩ ⟨2, s.before r⟩ = .ok y ∧
      List.Sublist (y.outcomes.toList.map .ok)
        (x.outcomes.toList.map (Outcome.resume r.lookup)) := by
  intro g s r x y
  have covered : g.Covered := by
    intro p point hp
    have := Array.mem_of_getElem? hp
    simp only [g, List.mem_toArray, List.mem_cons, List.not_mem_nil, or_false] at this
    obtain rfl | rfl | rfl := this <;> trivial
  have composed : s.Composes r (s.before r) := by
    refine Scope.composes_before fun a v ha => ⟨.int 5, ?_⟩
    have hv : v = .int 5 := by
      simp only [s, Scope.ofList, List.foldl, Scope.get?_bind, Scope.get?_empty] at ha
      grind
    rw [hv]
    exact Value.resume_of_isKnown rfl
  have hx : g.explore ⟨10, 4, false⟩ ⟨2, s⟩ = .ok x := by rfl
  have hy : g.explore ⟨10, 4, false⟩ ⟨2, s.before r⟩ = .ok y := by rfl
  exact ⟨covered, composed, hx, rfl, hy, (explore_resume covered composed hx rfl hy).2⟩

end FlowGraph

end Staged
