import Staged.Proofs.BindingTime.Basic
import Staged.Proofs.Eval.Folding

/-!
What a binding-time analysis calls known, and what is known when a body runs. The analysis looks at
variables only, so an assignment may leave a variable residual that the analysis calls known there.
Nothing else can: all that the analysis calls known is known to the run, unless it goes back to such
an assignment.
-/

namespace Staged

open Relation (ReflTransGen)

namespace FlowGraph

variable {g : FlowGraph} {names : NameTable} {entry : PointId} {seed : Division}

/-- On the way from `start` to a state a name has become residual, and variables are not to blame. It
goes back to an assignment to a variable that the analysis calls known there. All variables that the
value reads were bound to known values, but the target has no value at its position, or something that
is no variable keeps the value from folding. -/
inductive StaysResidual (g : FlowGraph) (names : NameTable) (entry : PointId) (seed : Division)
    (start : State) : State → String → Prop where
  | blocked {b c : State} {y : Ident} {u : Var} {e? : Option Expr}
      (hb : ReflTransGen g.DecidedStep start b) (hbc : g.DecidedStep b c)
      (hy : g.Assigns b.point y e?) (hyu : names.resolve y = some u)
      (hu : (g.flow names.resolve entry).KnownAt seed b.point u)
      (hreads : ∀ e ∈ e?, ∀ z ∈ e.idents, (names.resolve z).isSome →
        (b.scope.lookup z.name).isKnown)
      (hblocked : ∀ e ∈ e?, e.Blocked names.resolve b.scope.lookup)
      (hc : (c.scope.lookup y.name).isKnown = false) :
      StaysResidual g names entry seed start c y.name
  /-- A variable takes its value from one that is residual already. -/
  | reads {b c : State} {y z : Ident} {u w : Var} {e : Expr} (hbc : g.DecidedStep b c)
      (hy : g.Assigns b.point y (some e)) (hyu : names.resolve y = some u)
      (hu : (g.flow names.resolve entry).KnownAt seed b.point u) (hz : z ∈ e.idents)
      (hzw : names.resolve z = some w) (h : StaysResidual g names entry seed start b z.name)
      (hc : (c.scope.lookup y.name).isKnown = false) :
      StaysResidual g names entry seed start c y.name
  | keeps {b c : State} {x : String} (hbc : g.DecidedStep b c)
      (hx : ∀ y e?, g.Assigns b.point y e? → y.isBlank = false → y.name ≠ x)
      (h : StaysResidual g names entry seed start b x) : StaysResidual g names entry seed start c x

/-- A name that stays residual is residual. -/
lemma StaysResidual.isKnown_eq_false {start a : State} {x : String}
    (h : g.StaysResidual names entry seed start a x) : (a.scope.lookup x).isKnown = false := by
  induction h with
  | blocked _ _ _ _ _ _ _ hc => exact hc
  | reads _ _ _ _ _ _ _ hc => exact hc
  | keeps hbc hx _ ih => rw [hbc.lookup_eq hx, ih]

/-- Each variable that was known where its value comes from is bound to a known value, or stays
residual for another reason than variables. -/
structure Grounded (g : FlowGraph) (names : NameTable) (entry : PointId) (seed : Division)
    (start a : State) : Prop where
  steps : ReflTransGen g.DecidedStep start a
  reaches : (g.flow names.resolve entry).Reaches entry a.point
  traced : ∀ x u, names.resolve x = some u → (g.flow names.resolve entry).Traced seed a.point u
    ((a.scope.lookup x.name).isKnown ∨ g.StaysResidual names entry seed start a x.name)

namespace Grounded

variable {start a a' : State}

/-- A variable that the analysis calls known takes a known value or stays residual, if the same holds
of all that the assignment uses. -/
lemma assign (h : g.Grounded names entry seed start a) (ha : g.DecidedStep a a') {y : Ident}
    {e? : Option Expr} {u : Var} (hy : g.Assigns a.point y e?) (hb : y.isBlank = false)
    (hyu : names.resolve y = some u) (hu : (g.flow names.resolve entry).KnownAt seed a.point u)
    (huses : ∀ z w, names.resolve z = some w → w ∈ (g.flow names.resolve entry).uses a.point →
      (a.scope.lookup z.name).isKnown ∨ g.StaysResidual names entry seed start a z.name) :
    (a'.scope.lookup y.name).isKnown ∨ g.StaysResidual names entry seed start a' y.name := by
  rcases hknown : (a'.scope.lookup y.name).isKnown with _ | _
  · right
    -- of several targets with this name, the last one counts
    obtain ⟨x, d?, hx, hname, hd⟩ := ha.value_eq hy hb
    have hxu : names.resolve x = some u := (NameTable.resolve_congr hname).trans hyu
    rw [← hname] at hknown hd ⊢
    by_cases hreads : ∃ d ∈ d?, ∃ z ∈ d.idents, ∃ w, names.resolve z = some w ∧
        g.StaysResidual names entry seed start a z.name
    · obtain ⟨d, rfl, z, hz, w, hzw, hstays⟩ := hreads
      exact .reads ha hx hxu hu hz hzw hstays hknown
    · have hvars : ∀ d ∈ d?, ∀ z ∈ d.idents, (names.resolve z).isSome →
          (a.scope.lookup z.name).isKnown := by
        intro d hmem z hz hzw
        obtain ⟨w, hw⟩ := Option.isSome_iff_exists.1 hzw
        refine (huses z w hw (hx.mem_uses hmem hz hw)).resolve_right fun hstays => ?_
        exact hreads ⟨d, hmem, z, hz, w, hw, hstays⟩
      exact .blocked h.steps ha hx hxu hu hvars (fun d hmem =>
        Expr.blocked_of_isKnown_eq_false (hd d hmem) (hvars d hmem) hknown) hknown
  · exact .inl rfl

/-- **Steps.** A decided step keeps what is known of the variables. -/
lemma step (h : g.Grounded names entry seed start a) (ha : g.DecidedStep a a') :
    g.Grounded names entry seed start a' := by
  have hkeep (x : String) (hx : ∀ y e?, g.Assigns a.point y e? → y.isBlank = false → y.name ≠ x)
      (h : (a.scope.lookup x).isKnown ∨ g.StaysResidual names entry seed start a x) :
      (a'.scope.lookup x).isKnown ∨ g.StaysResidual names entry seed start a' x := by
    rw [ha.lookup_eq hx]
    exact h.imp_right (.keeps ha hx)
  refine ⟨h.steps.tail ha, h.reaches.tail ha.mem_successors, ?_⟩
  exact traced_step ha h.reaches h.traced hkeep fun y e? u hy hb hyu hu huses =>
    h.assign ha hy hb hyu hu huses

/-- **Runs.** A run keeps what is known of the variables. -/
theorem runs (h : ∀ x u, names.resolve x = some u → seed.isKnown u →
      (start.scope.lookup x.name).isKnown) (hentry : start.point = entry)
    (ha : ReflTransGen g.DecidedStep start a) : g.Grounded names entry seed start a := by
  induction ha with
  | refl => exact ⟨.refl, hentry ▸ .refl, fun x u hx => .inl fun hu => .inl (h x u hx hu)⟩
  | tail _ hstep ih => exact ih.step hstep

end Grounded

end FlowGraph

namespace Stmt

/-- **Known variables have known values.** Let a scope bind all variables that are known in the seed
to known values. Where a run that starts in it has come without an open choice, a variable that the
point uses and the solution calls known there is bound to a known value, unless it stays residual for
another reason than variables. -/
theorem isKnown_lookup_iff_not_staysResidual (body : Stmt) (names : NameTable) (seed : Division)
    {s : Scope}
    (hseed : ∀ x u, names.resolve x = some u → seed.isKnown u → (s.lookup x.name).isKnown)
    {r : BindingTimes} (hr : body.bindingTimes names.resolve seed = r) {a : State}
    (ha : ReflTransGen r.graph.DecidedStep ⟨r.entry, s⟩ a) {x : Ident} {u : Var}
    (hx : names.resolve x = some u) (huse : u ∈ (r.graph.flow names.resolve r.entry).uses a.point)
    (hu : r.solution.isKnown a.point u) :
    (a.scope.lookup x.name).isKnown ↔
      ¬ r.graph.StaysResidual names r.entry seed ⟨r.entry, s⟩ a x.name := by
  subst hr
  have hground : FlowGraph.Grounded _ names _ seed _ a := .runs hseed rfl ha
  have hor := (hground.traced x u hx).of_knownAt (FlowGraph.decidedBy_flow _ _ _) hground.reaches
    huse hu
  constructor
  · intro hknown hstays
    simp [hstays.isKnown_eq_false] at hknown
  · exact hor.resolve_right

lemma graph_assign_ret (y e : Expr) : (block [.assign [y] [e] false none, .ret [y]]).graph =
    (2, ⟨#[.ret [], .ret [y], .assign [y] [e] false 1]⟩) :=
  graph_assign_and_ret [y] [e] [y]

/-- In `y = y / y; return y` the variable `y` is known throughout. Where it is 0, the quotient stays
residual, and so does `y` at the return. -/
theorem isKnown_lookup_iff_not_staysResidual_quotient :
    let y : Expr := .name "y"
    let body : Stmt := .block [.assign [y] [.binary .quo y y] false none, .ret [y]]
    let names : NameTable := ⟨["y"]⟩
    let seed := Division.ofList [(0, true)]
    let s := Scope.ofList [("y", .int 0)]
    let r := body.bindingTimes names.resolve seed
    (∀ x u, names.resolve x = some u → seed.isKnown u → (s.lookup x.name).isKnown) ∧
    ∃ a, ReflTransGen r.graph.DecidedStep ⟨r.entry, s⟩ a ∧
      0 ∈ (r.graph.flow names.resolve r.entry).uses a.point ∧ r.solution.isKnown a.point 0 ∧
      (a.scope.lookup "y").isKnown = false ∧
      r.graph.StaysResidual names r.entry seed ⟨r.entry, s⟩ a "y" := by
  intro y body names seed s r
  have hgraph : r.graph = ⟨#[.ret [], .ret [y], .assign [y] [.binary .quo y y] false 1]⟩ :=
    congrArg Prod.snd (graph_assign_ret y _)
  have hentry : r.entry = 2 := congrArg Prod.fst (graph_assign_ret y _)
  have hseed (x : Ident) (u : Var) (hx : names.resolve x = some u) (_ : seed.isKnown u) :
      (s.lookup x.name).isKnown := by
    rw [List.mem_singleton.1 (NameTable.mem_of_resolve_eq_some hx)]
    rfl
  let a : State := ⟨1, s.bind "y" (.unknown (.binary .quo (.lit (.ofInt 0)) (.lit (.ofInt 0))))⟩
  have hstep : r.graph.DecidedStep ⟨r.entry, s⟩ a := by
    rw [hgraph, hentry]
    exact ⟨_, _, rfl, trivial, rfl, .head _⟩
  have huse : 0 ∈ (r.graph.flow names.resolve r.entry).uses 1 := by decide +kernel
  have hknown : r.solution.isKnown 1 0 := by decide +kernel
  have hresidual : (a.scope.lookup "y").isKnown = false := by decide
  have hiff := isKnown_lookup_iff_not_staysResidual body names seed hseed rfl (.single hstep)
    (x := ⟨"y", 0⟩) (by decide) huse hknown
  have hstays := not_not.1 (mt hiff.2 (by simp [hresidual]))
  exact ⟨hseed, a, .single hstep, huse, hknown, hresidual, hstays⟩

/-- Known variables alone do not make known values: in `y = f(); return y` no variable is read, so
`y` is known at the return for the analysis, and what `f` yields is not known to the run. -/
theorem residual_of_known_call :
    let y : Expr := .name "y"
    let body : Stmt := .block [.assign [y] [.call (.name "f") []] false none, .ret [y]]
    let names : NameTable := ⟨["y"]⟩
    let seed := Division.ofList [(0, true)]
    let s := Scope.ofList [("y", .int 0)]
    let r := body.bindingTimes names.resolve seed
    names.Declares body.targets ∧
    (∀ x u, names.resolve x = some u → seed.isKnown u → (s.lookup x.name).isKnown) ∧
    ∃ a, ReflTransGen r.graph.DecidedStep ⟨r.entry, s⟩ a ∧
      0 ∈ (r.graph.flow names.resolve r.entry).uses a.point ∧ r.solution.isKnown a.point 0 ∧
      (a.scope.lookup "y").isKnown = false := by
  intro y body names seed s r
  have hgraph : r.graph = ⟨#[.ret [], .ret [y], .assign [y] [.call (.name "f") []] false 1]⟩ :=
    congrArg Prod.snd (graph_assign_ret y _)
  have hentry : r.entry = 2 := congrArg Prod.fst (graph_assign_ret y _)
  have hdeclared : names.Declares body.targets := by
    intro x hx _
    obtain rfl : x = ⟨"y", 0⟩ := by simpa [body, targets, targetsAll, y, Expr.name] using hx
    decide
  have hseed (x : Ident) (u : Var) (hx : names.resolve x = some u) (_ : seed.isKnown u) :
      (s.lookup x.name).isKnown := by
    rw [List.mem_singleton.1 (NameTable.mem_of_resolve_eq_some hx)]
    rfl
  have hstep : r.graph.DecidedStep ⟨r.entry, s⟩
      ⟨1, s.bind "y" (.unknown (.call (.name "f") []))⟩ := by
    rw [hgraph, hentry]
    exact ⟨_, _, rfl, trivial, rfl, .head _⟩
  exact ⟨hdeclared, hseed, _, .single hstep, by decide +kernel, by decide +kernel, rfl⟩

end Stmt

end Staged
