import Staged.Proofs.BindingTime.Basic

/-!
Two runs of a body that start with the same known inputs. As long as they visit the same points, and
no choice on the way stays open, they agree on all that the binding-time analysis calls known: the
other inputs do not show in it.
-/

namespace Staged

namespace FlowGraph

variable {g : FlowGraph} {names : NameTable} {entry : PointId} {seed : Division}

/-- Two states of runs that started with the same known inputs. A variable has the same value in
both if it was known where its value comes from, and so has every name that is no variable. -/
structure Agree (g : FlowGraph) (names : NameTable) (entry : PointId) (seed : Division)
    (a b : State) : Prop where
  point_eq : a.point = b.point
  reaches : (g.flow names.resolve entry).Reaches entry a.point
  traced : ∀ x u, names.resolve x = some u →
    (g.flow names.resolve entry).Traced seed a.point u (a.scope.lookup x.name = b.scope.lookup x.name)
  others : ∀ x, names.resolve x = none → a.scope.lookup x.name = b.scope.lookup x.name

namespace Agree

variable {a b a' b' : State}

/-- The states agree on what is known where it is used. -/
lemma lookup_eq (h : g.Agree names entry seed a b) {x : Ident} {u : Var}
    (hx : names.resolve x = some u) (huse : u ∈ (g.flow names.resolve entry).uses a.point)
    (hu : (g.flow names.resolve entry).KnownAt seed a.point u) :
    a.scope.lookup x.name = b.scope.lookup x.name :=
  (h.traced x u hx).of_knownAt (g.decidedBy_flow names.resolve entry) h.reaches huse hu

/-- Where the states agree on all that an assignment uses, it assigns the same values. -/
lemma evalArgs_eq (h : g.Agree names entry seed a b) {targets values : List Expr} {define : Bool}
    {next : PointId} (hp : g.get? a.point = some (.assign targets values define next))
    (huses : ∀ z w, names.resolve z = some w → w ∈ (g.flow names.resolve entry).uses a.point →
      a.scope.lookup z.name = b.scope.lookup z.name) :
    Expr.evalArgs a.scope.lookup values = Expr.evalArgs b.scope.lookup values := by
  refine Expr.evalArgs_congr fun e he x hx => ?_
  rcases hz : names.resolve x with _ | w
  · exact h.others x hz
  · exact huses x w hz (mem_uses_flow hp he hx hz)

/-- **Steps.** Decided steps to the same point lead from agreement to agreement. -/
lemma step (declared : ∀ p y e?, g.Assigns p y e? → y.isBlank = false →
      (names.var? y.name).isSome)
    (h : g.Agree names entry seed a b) (ha : g.DecidedStep a a') (hb : g.DecidedStep b b')
    (hpoint : a'.point = b'.point) : g.Agree names entry seed a' b' := by
  have hkeep (x : String) (hx : ∀ y e?, g.Assigns a.point y e? → y.isBlank = false → y.name ≠ x)
      (heq : a.scope.lookup x = b.scope.lookup x) : a'.scope.lookup x = b'.scope.lookup x := by
    rw [ha.lookup_eq hx, hb.lookup_eq (h.point_eq ▸ hx), heq]
  refine ⟨hpoint, h.reaches.tail ha.mem_successors, ?_, fun x hx => ?_⟩
  · refine traced_step ha h.reaches h.traced hkeep fun y e? u hy hblank hyu hu huses => ?_
    obtain ⟨targets, values, define, next, hp, i, hi, -⟩ := hy
    obtain ⟨vs, hvs, hscope⟩ := ha.assign hp
    obtain ⟨ws, hws, hscope'⟩ := hb.assign (h.point_eq ▸ hp)
    obtain rfl : vs = ws := by
      rw [h.evalArgs_eq hp huses] at hvs
      exact Except.ok.inj (hvs.symm.trans hws)
    obtain ⟨v, hv⟩ := Option.isSome_iff_exists.1
      (Scope.isSome_assigned vs (List.mem_of_getElem? hi) hblank)
    simp only [hscope, hscope', Scope.lookup_assign, hv, Option.getD_some]
  · refine hkeep x.name (fun y e? hy hblank hname => ?_) (h.others x hx)
    -- a target has a variable
    have hvar := declared _ y e? hy hblank
    rw [← NameTable.resolve_of_not_isBlank hblank, NameTable.resolve_congr hname, hx] at hvar
    simp at hvar

/-- **Runs.** Runs along the same points keep agreement. -/
theorem runs (declared : ∀ p y e?, g.Assigns p y e? → y.isBlank = false →
      (names.var? y.name).isSome)
    (h : g.Agree names entry seed a b) {as bs : List State}
    (ha : List.IsChain g.DecidedStep (a :: as)) (hb : List.IsChain g.DecidedStep (b :: bs))
    (same : as.map State.point = bs.map State.point) :
    List.Forall₂ (g.Agree names entry seed) (a :: as) (b :: bs) := by
  induction as generalizing a b bs with
  | nil =>
    obtain rfl : bs = [] := by simpa using same.symm
    exact .cons h .nil
  | cons a' as ih =>
    cases bs with
    | nil => simp at same
    | cons b' bs =>
      obtain ⟨hpoint, same⟩ := List.cons.inj same
      obtain ⟨hstep, ha⟩ := List.isChain_cons_cons.1 ha
      obtain ⟨hstep', hb⟩ := List.isChain_cons_cons.1 hb
      exact .cons h (ih (h.step declared hstep hstep' hpoint) ha hb same)

end Agree

end FlowGraph

namespace Stmt

/-- **Known variables carry no dynamic input.** Let two scopes agree on all variables that are known
in the seed, and on all names that are no variables. Where two runs that start in them visit the
same points of the body, and decide every test they pass, they agree at each point on every variable
that the point uses and the solution calls known there. -/
theorem lookup_eq_of_isKnown (body : Stmt) (names : NameTable)
    (declared : names.Declares body.targets) (seed : Division) {s t : Scope}
    (hseed : ∀ x u, names.resolve x = some u → seed.isKnown u →
      s.lookup x.name = t.lookup x.name)
    (hothers : ∀ x, names.resolve x = none → s.lookup x.name = t.lookup x.name)
    {r : BindingTimes} (hr : body.bindingTimes names.resolve seed = r) {as bs : List State}
    (hs : List.IsChain r.graph.DecidedStep (⟨r.entry, s⟩ :: as))
    (ht : List.IsChain r.graph.DecidedStep (⟨r.entry, t⟩ :: bs))
    (same : as.map State.point = bs.map State.point) :
    List.Forall₂ (fun a b => ∀ x u, names.resolve x = some u →
        u ∈ (r.graph.flow names.resolve r.entry).uses a.point → r.solution.isKnown a.point u →
        a.scope.lookup x.name = b.scope.lookup x.name)
      (⟨r.entry, s⟩ :: as) (⟨r.entry, t⟩ :: bs) := by
  subst hr
  have hstart : FlowGraph.Agree (body.bindingTimes names.resolve seed).graph names
      (body.bindingTimes names.resolve seed).entry seed
      ⟨(body.bindingTimes names.resolve seed).entry, s⟩
      ⟨(body.bindingTimes names.resolve seed).entry, t⟩ :=
    ⟨rfl, .refl, fun x u hx => .inl (hseed x u hx), hothers⟩
  have hdeclared (p : PointId) (y : Ident) (e? : Option Expr)
      (hy : (body.bindingTimes names.resolve seed).graph.Assigns p y e?) (hb : y.isBlank = false) :
      (names.var? y.name).isSome := by
    obtain ⟨targets, values, define, next, hp, i, hi, -⟩ := hy
    exact declared y (targets_subset_of_get? hp (List.mem_of_getElem? hi)) hb
  refine (hstart.runs hdeclared hs ht same).imp fun a b h => ?_
  intro x u hx huse hu
  exact h.lookup_eq hx huse hu

/-- In `x = n + n; y = d; if x == m { z = x }; return z, y` the input `d` is not known. It shows in
`y`, and it does not show in `z`, which is known at the return. -/
theorem lookup_eq_of_isKnown_input :
    let body : Stmt := .block [.assign [.name "x"] [.binary .add (.name "n") (.name "n")] true none,
      .assign [.name "y"] [.name "d"] true none,
      .ifElse none (.binary .eql (.name "x") (.name "m")) (.assign [.name "z"] [.name "x"] false none)
        none, .ret [.name "z", .name "y"]]
    let names : NameTable := ⟨["d", "n", "m", "x", "y", "z"]⟩
    let seed := Division.ofList [(0, false), (1, true), (2, true), (3, true), (4, true), (5, true)]
    let r := body.bindingTimes names.resolve seed
    let start (d : Value) := Scope.ofList [("n", .int 2), ("m", .int 4), ("d", d)]
    names.Declares body.targets ∧
    (∀ x u, names.resolve x = some u → seed.isKnown u →
      (start (.int 1)).lookup x.name = (start (.int 2)).lookup x.name) ∧
    (∀ x, names.resolve x = none →
      (start (.int 1)).lookup x.name = (start (.int 2)).lookup x.name) ∧
    ∃ as bs a b, List.IsChain r.graph.DecidedStep (⟨r.entry, start (.int 1)⟩ :: as) ∧
      List.IsChain r.graph.DecidedStep (⟨r.entry, start (.int 2)⟩ :: bs) ∧
      as.map State.point = bs.map State.point ∧ as.getLast? = some a ∧ bs.getLast? = some b ∧
      a.scope.lookup "z" = b.scope.lookup "z" ∧ a.scope.lookup "y" ≠ b.scope.lookup "y" := by
  intro body names seed r start
  have hbody : body.graph = (5, ⟨#[.ret [], .ret [.name "z", .name "y"],
      .assign [.name "z"] [.name "x"] false 1,
      .branch (some (.binary .eql (.name "x") (.name "m"))) 2 1,
      .assign [.name "y"] [.name "d"] true 3,
      .assign [.name "x"] [.binary .add (.name "n") (.name "n")] true 4]⟩) := by
    simp [body, graph, analyze, compile, compileAll, compileOption, Draft.add, FlowGraph.push,
      FlowGraph.exit, Draft.settle, Draft.resolve, Draft.redirects, Draft.follow, Point.redirect,
      FlowGraph.size]
  have hgraph : r.graph = _ := congrArg Prod.snd hbody
  have hentry : r.entry = 5 := congrArg Prod.fst hbody
  have hother (x : Ident) (hx : x.name ≠ "d") :
      (start (.int 1)).lookup x.name = (start (.int 2)).lookup x.name := by
    simp [start, Scope.ofList, hx]
  have hdeclared : names.Declares body.targets := by
    intro x hx _
    simp only [body, targets, targetsAll, targetsOption, Expr.name, List.append_nil, List.nil_append,
      List.mem_append, List.mem_singleton, Expr.ident.injEq] at hx
    rcases hx with rfl | rfl | rfl <;> decide
  have hd {x : Ident} (h : x.name = "d") : names.resolve x = some 0 :=
    (NameTable.resolve_congr (y := ⟨"d", 0⟩) h).trans (by decide)
  have hseed (x : Ident) (u : Var) (hx : names.resolve x = some u) (hu : seed.isKnown u) :
      (start (.int 1)).lookup x.name = (start (.int 2)).lookup x.name := by
    refine hother x fun h => ?_
    obtain rfl : 0 = u := Option.some.inj ((hd h).symm.trans hx)
    exact absurd hu (by decide)
  have hothers (x : Ident) (hx : names.resolve x = none) :
      (start (.int 1)).lookup x.name = (start (.int 2)).lookup x.name :=
    hother x fun h => by simp [hd h] at hx
  let s (d : Value) := (start d).bind "x" (.int 4)
  let t (d : Value) := ((s d).bind "y" d).bind "x" (.int 4)
  let last (d : Value) : State := ⟨1, (t d).bind "z" (.int 4)⟩
  let rest (d : Value) : List State := [⟨4, s d⟩, ⟨3, (s d).bind "y" d⟩, ⟨2, t d⟩, last d]
  have hrun (d : Value) : List.IsChain r.graph.DecidedStep (⟨r.entry, start d⟩ :: rest d) := by
    rw [hgraph, hentry]
    simp only [rest, last, List.isChain_cons_cons]
    exact ⟨⟨_, _, rfl, trivial, rfl, .head _⟩, ⟨_, _, rfl, trivial, rfl, .head _⟩,
      ⟨_, _, rfl, ⟨true, rfl⟩, rfl, .head _⟩, ⟨_, _, rfl, trivial, rfl, .head _⟩, .singleton _⟩
  have hknown : r.solution.isKnown 1 5 := by decide +kernel
  have huse : 5 ∈ (r.graph.flow names.resolve r.entry).uses 1 := by decide +kernel
  have hagree := lookup_eq_of_isKnown body names hdeclared seed hseed hothers rfl (hrun (.int 1))
    (hrun (.int 2)) rfl
  have hz := (List.forall₂_iff_get.1 hagree).2 4 (by simp [rest]) (by simp [rest]) ⟨"z", 0⟩ 5
    (by decide) huse hknown
  exact ⟨hdeclared, hseed, hothers, rest (.int 1), rest (.int 2), last (.int 1), last (.int 2), hrun _,
    hrun _, rfl, rfl, rfl, hz, by simp [last, t]⟩

end Stmt

end Staged
