import Staged.Exploration
import Staged.Graph.Compilation
import Staged.Proofs.Graph.Parts
import Staged.Proofs.Renaming.Step

/-!
Exploration under other names. Where two names become one and neither takes a value while the other
is still needed, the paths through a graph end as they did, with the new names in what they return.
Where one does, the value of one variable shows up as that of the other.
-/

namespace Staged

namespace Outcome

def rename (f : Renaming) : Outcome → Outcome
  | returned p values => returned p (values.map (Value.rename f))
  | stopped p => stopped p

lemma map_rename_append (f : Renaming) (outcomes : Array Outcome) (more : List Outcome) :
    outcomes.map (rename f) ++ more.map (rename f) = (outcomes ++ more).map (rename f) :=
  Array.ext' (by simp)

end Outcome

namespace Exploration

def rename (f : Renaming) (u : Exploration) : Exploration :=
  { u with outcomes := u.outcomes.map (Outcome.rename f) }

end Exploration

namespace Expansion

/-- What becomes of a state and of the state under the new names. -/
inductive Renamed (f : Renaming) (g : FlowGraph) : Expansion → Expansion → Prop where
  | done (outcome : Outcome) : Renamed f g (.done outcome) (.done (outcome.rename f))
  | next {as bs : List State} (h : List.Forall₂ (State.Renamed f g) as bs) :
      Renamed f g (.next as) (.next bs)

variable {f : Renaming} {g : FlowGraph} {xs ys : List Expansion}

lemma filterMap_outcome?_renamed (h : List.Forall₂ (Renamed f g) xs ys) :
    ys.filterMap outcome? = (xs.filterMap outcome?).map (Outcome.rename f) := by
  induction h with
  | nil => rfl
  | cons hxy _ ih =>
    cases hxy with
    | done outcome => simp [outcome?, ih]
    | next => simpa [List.filterMap_cons, outcome?] using ih

lemma flatMap_states_renamed (h : List.Forall₂ (Renamed f g) xs ys) :
    List.Forall₂ (State.Renamed f g) (xs.flatMap states) (ys.flatMap states) := by
  induction h with
  | nil => exact .nil
  | cons hxy _ ih =>
    rw [List.flatMap_cons, List.flatMap_cons]
    cases hxy with
    | done => simpa [states] using ih
    | next h => exact List.rel_append h ih

end Expansion

namespace FlowGraph

variable {f : Renaming} {g : FlowGraph} {a b : State} {as bs : List State}

lemma expand_renamed (hapart : g.Apart f) (h : State.Renamed f g a b) :
    SameResult (Expansion.Renamed f g) (g.expand a) ((g.rename f).expand b) := by
  have hpoint := h.point_eq
  have hscope := h.scope
  obtain ⟨p, s⟩ := a
  obtain ⟨q, t⟩ := b
  obtain rfl : p = q := hpoint
  rcases hp : g.get? p with _ | point
  · simp only [expand, get?_rename, hp, Option.map_none]
    exact .ok (.done (.stopped p))
  · have hstep := step_renamed hapart hp hscope
    cases point with
    | ret results =>
      have hvalues : Expr.evalArgs t.lookup (results.map (Expr.rename f)) =
          List.map (Value.rename f) <$> Expr.evalArgs s.lookup results :=
        Expr.evalArgs_rename fun e he x hx => hscope x.name (.read hp ⟨e, he, x, hx, rfl⟩)
      simp only [expand, get?_rename, hp, Option.map_some, Point.rename, hvalues]
      refine (SameResult.map _ _).bind fun vs ws hws => ?_
      subst hws
      exact .ok (.done (.returned p vs))
    | unsupported stmt =>
      simp only [expand, get?_rename, hp, Option.map_some, Point.rename]
      exact .ok (.done (.stopped p))
    | evaluate | assign | branch =>
      simp only [expand, get?_rename, hp, Option.map_some, Point.rename] at hstep ⊢
      exact hstep.bind fun _ _ h => .ok (.next h)

theorem exploreFrom_renamed (hapart : g.Apart f) {length states : Nat}
    (h : List.Forall₂ (State.Renamed f g) as bs) (u : Exploration) :
    (g.rename f).exploreFrom length states bs (u.rename f) =
      Exploration.rename f <$> g.exploreFrom length states as u := by
  induction length generalizing states as bs u with
  | zero =>
    cases h with
    | nil => simp [exploreFrom]
    | cons => simp [exploreFrom, Exploration.rename]
  | succ length ih =>
    cases h with
    | nil => simp [exploreFrom]
    | @cons a b as bs hab h =>
      have hexpand := SameResult.mapM (List.forall₂_take states (.cons hab h))
        fun a b => expand_renamed (a := a) (b := b) hapart
      have hlength := h.length_eq
      have hwithin := (List.forall₂_take states (.cons hab h)).length_eq
      rw [exploreFrom, exploreFrom]
      generalize ((a :: as).take states).mapM g.expand = r at hexpand ⊢
      generalize ((b :: bs).take states).mapM (g.rename f).expand = r' at hexpand ⊢
      cases hexpand with
      | error e => rfl
      | @ok xs ys hxs =>
        have houtcomes := Expansion.filterMap_outcome?_renamed hxs
        simp only [hwithin, hlength, houtcomes, Exploration.rename, Outcome.map_rename_append]
        split
        · rfl
        · exact ih (Expansion.flatMap_states_renamed hxs)
            { outcomes := u.outcomes ++ xs.filterMap Expansion.outcome?, visited := _ }

/-- An exploration under the new names finds the same, under the new names. -/
theorem explore_renamed (hapart : g.Apart f) (limits : Limits) (h : State.Renamed f g a b) :
    (g.rename f).explore limits b = Exploration.rename f <$> g.explore limits a := by
  have hempty : Exploration.rename f {} = {} := by simp [Exploration.rename]
  rw [explore, explore, ← exploreFrom_renamed hapart (.cons h .nil), hempty]

end FlowGraph

/-- Neither is `y` bound, nor does a value mention it. -/
def Scope.Fresh (s : Scope) (y : String) : Prop :=
  ∀ b ∈ s.bindings, b.1 ≠ y ∧ ∀ x ∈ b.2.expr.idents, x.name ≠ y

namespace Scope

variable {s : Scope} {x y : String}

lemma Fresh.get?_eq_none (h : s.Fresh y) : s.get? y = none :=
  Option.eq_none_iff_forall_ne_some.2 fun _ hv => (h _ (mem_of_lookup_eq_some hv)).1 rfl

/-- A scope in which `y` is fresh stays as it is when `y` becomes `x`, as long as `x` is free if `y`
is needed. -/
lemma Fresh.renamed (h : s.Fresh y) (hy : y ∉ reserved) (hx : x ∉ reserved) {N : String → Prop}
    (hfree : N y → s.get? x = none) : s.Renamed (.merge y x hy hx) N s := by
  intro z hz
  by_cases hzy : z = y
  · subst hzy
    simp [lookup, h.get?_eq_none, hfree hz]
  · rw [Renaming.merge_of_ne hy hx hzy, lookup]
    rcases hv : s.get? z with _ | v
    · simp [Renaming.merge_of_ne hy hx hzy]
    · refine (Value.rename_of_forall fun w hw => ?_).symm
      exact Renaming.merge_of_ne hy hx ((h _ (mem_of_lookup_eq_some hv)).2 w hw)

end Scope

namespace Stmt

/-- **Variables with the same name.** Let `y` stand for a variable of its own in the body, and give
it the name `x`. If neither of the two variables takes a value while the other is still needed, and
`x` is free at the start if `y` is needed from there, then the graph is entered at the same point and
the exploration finds the same paths and comes to the same values, with `x` in place of `y` in what
is not known. -/
theorem explore_merge {x y : String} (hy : y ∉ reserved) (hx : x ∉ reserved) (body : Stmt)
    (hapart : body.graph.2.Apart (.merge y x hy hx)) (s : Scope) (hs : s.Fresh y)
    (hfree : body.graph.2.Live y body.graph.1 → s.get? x = none) (limits : Limits) :
    let f := Renaming.merge y x hy hx
    (body.rename f).graph.1 = body.graph.1 ∧
      (body.rename f).graph.2.explore limits ⟨body.graph.1, s⟩ =
        Exploration.rename f <$> body.graph.2.explore limits ⟨body.graph.1, s⟩ := by
  intro f
  rw [graph_rename]
  exact ⟨rfl, FlowGraph.explore_renamed hapart limits ⟨rfl, hs.renamed hy hx hfree⟩⟩

/-- In `if p { y := a; return y }; return x` the variable `y` is needed in the block only, and `x`
after it only. So both may be called `x`, and where the block is not entered, the outer one keeps its
value. -/
theorem explore_merge_block :
    let body : Stmt := .block [.ifElse none (.name "p")
      (.block [.assign [.name "y"] [.name "a"] true none, .ret [.name "y"]]) none, .ret [.name "x"]]
    let f := Renaming.merge "y" "x" (by decide) (by decide)
    let s := Scope.ofList [("x", .int 1)]
    body.graph.2.Apart f ∧ s.Fresh "y" ∧ (body.graph.2.Live "y" body.graph.1 → s.get? "x" = none) ∧
      (body.rename f).graph.2.explore ⟨10, 10, false⟩ ⟨body.graph.1, s⟩ =
        .ok { outcomes := #[.returned 1 [.int 1], .returned 2 [.free "a"]], visited := 4 } := by
  intro body f s
  let g : FlowGraph := ⟨#[.ret [], .ret [.name "x"], .ret [.name "y"],
    .assign [.name "y"] [.name "a"] true 2, .branch (some (.name "p")) 3 1]⟩
  have hbody : body.graph = (4, g) := by
    simp [body, g, graph, analyze, compile, compileAll, compileOption, Draft.add, FlowGraph.push,
      FlowGraph.exit, Draft.settle, Draft.resolve, Draft.redirects, Draft.follow, Point.redirect,
      FlowGraph.size]
  have hreturn (x z : String) (p : PointId) (hp : g.get? p = some (.ret [.name x]))
      (hz : g.Live z p) : z = x := by
    rw [FlowGraph.live_iff hp] at hz
    obtain ⟨e, he, w, hw, rfl⟩ | ⟨-, q, hq, -⟩ := hz
    · obtain rfl := List.mem_singleton.1 he
      simp only [Expr.name, Expr.idents] at hw
      split at hw <;> simp_all
    · simp [Point.successors] at hq
  have hapart : g.Apart f := by
    refine ⟨fun p targets values define next hp x hx z hz _ => ?_, fun p test _ _ hp x hx => ?_⟩ <;>
      have hmem := Array.mem_of_getElem? hp
    · simp only [g, List.mem_toArray, List.mem_cons, reduceCtorEq, Point.assign.injEq, false_or,
        List.not_mem_nil, or_false] at hmem
      obtain ⟨rfl, -, -, rfl⟩ := hmem
      obtain rfl : x = ⟨"y", 0⟩ := by simpa [Expr.name] using hx
      exact hreturn "y" z 2 rfl hz
    · simp only [g, List.mem_toArray, List.mem_cons, reduceCtorEq, Point.branch.injEq, false_or,
        List.not_mem_nil, or_false, Option.some.injEq] at hmem
      obtain ⟨rfl, -, -⟩ := hmem
      simp [Expr.name, Expr.equated] at hx
  have hdead : ¬ g.Live "y" 4 := by
    have hbranch : g.get? 4 = some (.branch (some (.name "p")) 3 1) := rfl
    have hassign : g.get? 3 = some (.assign [.name "y"] [.name "a"] true 2) := rfl
    have hset : Point.Sets (.assign [.name "y"] [.name "a"] true 2) "y" :=
      ⟨_, List.mem_singleton.2 rfl, rfl, rfl⟩
    have hafter : ¬ g.Live "y" 1 := fun h => absurd (hreturn "x" "y" 1 rfl h) (by decide)
    have hread : ¬ Point.Reads (.assign [.name "y"] [.name "a"] true 2) "y" := by
      simp [Point.Reads, Point.reads, Expr.name, Expr.idents, Ident.isBoolConstant]
    have htest : ¬ Point.Reads (.branch (some (.name "p")) 3 1) "y" := by
      simp [Point.Reads, Point.reads, Expr.name, Expr.idents, Ident.isBoolConstant]
    simp [FlowGraph.live_iff hbranch, FlowGraph.live_iff hassign, hset, hread, htest, hafter,
      Point.successors]
  have hs : s.Fresh "y" := by
    simp [s, Scope.Fresh, Scope.ofList, Value.expr, Expr.idents]
  have hgraph : body.graph.2 = g := congrArg Prod.snd hbody
  have hentry : body.graph.1 = 4 := congrArg Prod.fst hbody
  have hapart : body.graph.2.Apart f := hgraph ▸ hapart
  have hfree : body.graph.2.Live "y" body.graph.1 → s.get? "x" = none := by
    rw [hgraph, hentry]
    exact fun h => absurd h hdead
  have hmerge := (explore_merge _ _ body hapart s hs hfree ⟨10, 10, false⟩).2
  have hexplore : g.explore ⟨10, 10, false⟩ ⟨4, s⟩ =
      .ok { outcomes := #[.returned 1 [.int 1], .returned 2 [.free "a"]], visited := 4 } := by rfl
  rw [hgraph, hentry, hexplore] at hmerge
  refine ⟨hapart, hs, hfree, ?_⟩
  rw [hentry, hmerge, Except.map_ok]
  simp [Exploration.rename, Outcome.rename, Renaming.merge_of_ne]

/-- In `x := 1; { y := 2; f(y) }; return x` the variable `x` is needed after the block. With the name
`x` for `y` as well, what is returned is the value from inside the block. -/
theorem explore_merge_collapses :
    let body (y : String) : Stmt := .block [.assign [.name "x"] [.lit ⟨.int, "1"⟩] true none,
      .block [.assign [.name y] [.lit ⟨.int, "2"⟩] true none,
        .expr (.call (.name "f") [.name y])],
      .ret [.name "x"]]
    let f := Renaming.merge "y" "x" (by decide) (by decide)
    let explore (s : Stmt) := s.graph.2.explore ⟨10, 10, false⟩ ⟨s.graph.1, .empty⟩
    (body "y").rename f = body "x" ∧
      explore (body "y") = .ok { outcomes := #[.returned 1 [.int 1]], visited := 4 } ∧
      explore (body "x") = .ok { outcomes := #[.returned 1 [.int 2]], visited := 4 } ∧
      explore (body "x") ≠ Exploration.rename f <$> explore (body "y") := by
  intro body f explore
  have hbody (y : String) : (body y).graph = (4, ⟨#[.ret [], .ret [.name "x"],
      .evaluate (.call (.name "f") [.name y]) 1, .assign [.name y] [.lit ⟨.int, "2"⟩] true 2,
      .assign [.name "x"] [.lit ⟨.int, "1"⟩] true 3]⟩) := by
    simp [body, graph, analyze, compile, compileAll, Draft.add, FlowGraph.push, FlowGraph.exit,
      Draft.settle, Draft.resolve, Draft.redirects, Draft.follow, Point.redirect, FlowGraph.size]
  have hapart : explore (body "y") = .ok { outcomes := #[.returned 1 [.int 1]], visited := 4 } := by
    simp only [explore, hbody]
    rfl
  have hshared : explore (body "x") = .ok { outcomes := #[.returned 1 [.int 2]], visited := 4 } := by
    simp only [explore, hbody]
    rfl
  refine ⟨rfl, hapart, hshared, ?_⟩
  rw [hapart, hshared]
  simp [Exploration.rename, Outcome.rename]

end Stmt

end Staged
