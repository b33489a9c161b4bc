import Staged.BindingTime
import Staged.Proofs.Dependency.Paths
import Staged.Proofs.Graph.Descent

/-!
Loops are the only cycles of a statement without jumps to labels. Each cycle goes through the test
of a loop, and there the round may end, so no node of a dependency graph depends on an unbounded
loop.
-/

namespace Staged

/-- Where every step leads down but from `tests`, what does not lead down goes through `tests`. -/
lemma lt_or_exists_of_transGen {r : Nat → Nat → Prop} {tests : Nat → Prop}
    (hr : ∀ a b, r a b → b < a ∨ tests a) {a b : Nat} (h : Relation.TransGen r a b) :
    b < a ∨ ∃ t, tests t ∧ Relation.ReflTransGen r a t ∧ Relation.TransGen r t b := by
  induction h with
  | single hab => exact (hr _ _ hab).imp id fun ht => ⟨_, ht, .refl, .single hab⟩
  | @tail b c hab hbc ih =>
    rcases hr b c hbc with hlt | ht
    · rcases ih with hba | ⟨t, ht, hat, htb⟩
      · exact .inl (Nat.lt_trans hlt hba)
      · exact .inr ⟨t, ht, hat, htb.tail hbc⟩
    · exact .inr ⟨b, ht, hab.to_reflTransGen, .single hbc⟩

namespace Flow

/-- Where each round goes through a choice, every round through a point may end. -/
lemma not_unbounded_mem_loopDeps {f : Flow PointId} {tests : PointId → Prop}
    (hedge : ∀ p q, q ∈ f.successors p → q < p ∨ tests p)
    (htests : ∀ p, tests p → 1 < (f.successors p).length) {p : PointId}
    (hp : f.Reaches f.entry p) : .unbounded ∉ (f.nodeAt p).loopDeps := by
  rw [unbounded_mem_loopDeps_iff hp]
  rintro ⟨hcarried, hend⟩
  have hround : f.Ahead p p := hcarried.ahead_self
  obtain hlt | ⟨t, ht, hpt, htp⟩ := lt_or_exists_of_transGen hedge hround
  · exact Nat.lt_irrefl p hlt
  · exact hend t ⟨htp.to_reflTransGen, hround.trans_left hpt, htests t ht⟩

end Flow

namespace FlowGraph

lemma isTerminal_of_get?_exit {p : PointId} {point : Point}
    (h : exit.get? p = some point) : point.isTerminal := by
  rcases p with _ | p
  · obtain rfl : Point.ret [] = point := by simpa [exit, get?] using h
    rfl
  · simp [exit, get?] at h

end FlowGraph

namespace DependencyGraph

variable {P : Type}

lemma counts_unboundedLoops_eq_zero {g : DependencyGraph P}
    (h : ∀ n ∈ g.nodes, .unbounded ∉ n.loopDeps) : g.counts.unboundedLoops = 0 := by
  refine List.count_eq_zero.2 fun hmem => ?_
  obtain ⟨n, hn, hunbounded⟩ := List.mem_flatMap.1 hmem
  exact h n (Array.mem_toList_iff.1 hn) hunbounded

end DependencyGraph

namespace Stmt

variable {s : Stmt} {g : FlowGraph} {next : PointId}

lemma lt_or_testsAt_of_mem_successors (hs : s.gotos = [])
    (hg : ∀ p point, g.get? p = some point → point.isTerminal) (hnext : next < g.size)
    {p q : PointId} (hq : q ∈ (s.analyze next { graph := g }).2.graph.successors p) :
    q < p ∨ (s.outermost next g).TestsAt p := by
  obtain ⟨i, hi⟩ := List.mem_iff_getElem?.1 hq
  exact (lt_or_testsAt_of_edge hs hg hnext hi).imp id And.right

/-- There is no way round that leaves out the tests of loops. -/
lemma not_cycle_outside_tests (hs : s.gotos = [])
    (hg : ∀ p point, g.get? p = some point → point.isTerminal) (hnext : next < g.size)
    (p : PointId) :
    ¬ Relation.TransGen (fun p q => q ∈ (s.analyze next { graph := g }).2.graph.successors p ∧
      ¬ (s.outermost next g).TestsAt p) p p := by
  intro hp
  have hedge (p q : PointId) (hpq : q ∈ (s.analyze next { graph := g }).2.graph.successors p ∧
      ¬ (s.outermost next g).TestsAt p) : q < p ∨ False :=
    .inl ((lt_or_testsAt_of_mem_successors hs hg hnext hpq.1).resolve_right hpq.2)
  obtain hlt | ⟨_, hfalse, -⟩ := lt_or_exists_of_transGen hedge hp
  · exact Nat.lt_irrefl p hlt
  · exact hfalse

/-- Every loop has a test, and so a choice. -/
lemma not_unbounded_mem_nodes (hs : s.gotos = []) (resolve : Resolver) (seed : Division)
    {n : Node PointId} (hn : n ∈ ((s.bindingTimes resolve seed).graph.flow resolve
      (s.bindingTimes resolve seed).entry).dependencies.nodes) : .unbounded ∉ n.loopDeps := by
  obtain ⟨p, hp, rfl⟩ := Flow.mem_nodes_iff.1 hn
  have hnext : 0 < FlowGraph.exit.size := by decide
  refine Flow.not_unbounded_mem_loopDeps (fun p q => lt_or_testsAt_of_mem_successors hs
    (fun _ _ => FlowGraph.isTerminal_of_get?_exit) hnext) (fun p hp => ?_) hp
  obtain ⟨test, ifTrue, ifFalse, hbranch⟩ := exists_branch_of_testsAt hs hnext hp
  have hsuccessors : s.graph.2.successors p = [ifTrue, ifFalse] := by
    simp only [FlowGraph.successors, Stmt.graph, hbranch, Point.successors]
  calc 1 < [ifTrue, ifFalse].length := by simp
    _ = (s.graph.2.successors p).length := by rw [hsuccessors]

/-- **Loops are the only cycles.** Let a statement without jumps to labels be compiled against a
point of a graph in which all points are terminal. Every edge of the result leads to a point with a
smaller number, unless it is the true side of a branch that was made as the test of a loop, so every
cycle goes through the test of a loop. Whatever the variables are and whichever of them are known at
the start, the analysis of the statement finds no dependency on an unbounded loop. -/
theorem analyze_cycles_through_tests (s : Stmt) (hs : s.gotos = []) :
    (∀ (g : FlowGraph) (next : PointId),
      (∀ p point, g.get? p = some point → point.isTerminal) → next < g.size →
      let c := s.outermost next g
      let graph := (s.analyze next { graph := g }).2.graph
      (∀ p i q, (graph.successors p)[i]? = some q → q < p ∨ i = 0 ∧ c.TestsAt p) ∧
        (∀ p, c.TestsAt p →
          ∃ test ifTrue ifFalse, graph.get? p = some (.branch test ifTrue ifFalse)) ∧
        ∀ p, ¬ Relation.TransGen (fun p q => q ∈ graph.successors p ∧ ¬ c.TestsAt p) p p) ∧
    ∀ (resolve : Resolver) (seed : Division),
      let b := s.bindingTimes resolve seed
      (∀ n ∈ (b.graph.flow resolve b.entry).dependencies.nodes, .unbounded ∉ n.loopDeps) ∧
        b.counts.unboundedLoops = 0 := by
  constructor
  · intro g next hg hnext
    exact ⟨fun p i q => lt_or_testsAt_of_edge hs hg hnext,
      fun p => exists_branch_of_testsAt hs hnext, not_cycle_outside_tests hs hg hnext⟩
  · intro resolve seed
    have hnodes := fun n => not_unbounded_mem_nodes (n := n) hs resolve seed
    exact ⟨hnodes, DependencyGraph.counts_unboundedLoops_eq_zero hnodes⟩

/-- The inner loop of `outer: for p { for ;; i++ { if q { continue outer } } }` has no test, and its
body is above it: its branch is the test that the edge from there to the body needs. -/
theorem analyze_cycles_through_tests_nested :
    let s : Stmt := .labeled "outer" (.loop none (some (.name "p")) none
      (.loop none none (some (.count (.name "i") true))
        (.ifElse none (.name "q") (.jump .continueOn (some "outer")) none)))
    s.gotos = [] ∧ (∀ p point, FlowGraph.exit.get? p = some point → point.isTerminal) ∧
      0 < FlowGraph.exit.size ∧ (s.graph.2.successors 2)[0]? = some 4 ∧
      (s.outermost 0 .exit).TestsAt 2 ∧
      (s.bindingTimes (NameTable.ofList ["i", "p", "q"]).resolve {}).counts.unboundedLoops = 0 := by
  intro s
  have hs : s.gotos = [] := by decide
  have hexit (p : PointId) (point : Point) (h : FlowGraph.exit.get? p = some point) :
      point.isTerminal := FlowGraph.isTerminal_of_get?_exit h
  have hnext : 0 < FlowGraph.exit.size := by decide
  have hbody : (s.graph.2.successors 2)[0]? = some 4 := by decide +kernel
  obtain ⟨hgraph, hcounts⟩ := analyze_cycles_through_tests s hs
  have htest := ((hgraph .exit 0 hexit hnext).1 2 0 4 hbody).resolve_left (by decide)
  exact ⟨hs, hexit, hnext, hbody, htest.2, (hcounts _ _).2⟩

end Stmt

end Staged
