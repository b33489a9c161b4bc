import Staged.Flow.Table
import Staged.Proofs.Dependency.Rounds
import Staged.Proofs.Solution.Greatest

/-!
Rounds that cannot be left. A node depends on an unbounded loop exactly if its uses come round again
and control, wherever it goes from there, has no choice but to come back. The solution calls nothing
known that such a node defines, whatever it is told of the choices.
-/

namespace Staged

namespace DependencyGraph

variable {P : Type} {g : DependencyGraph P} {decides : P → Division → Bool} {seed : Division}

lemma within_family (hdeps : ∀ n ∈ g.nodes, ∀ q ∈ n.dataDeps, q < g.size) :
    (g.family decides seed).Within seed g.size :=
  Family.within_settle (Family.within_replicate seed g.size)
    fun _ hc => inRange_of_mem_constraints hdeps hc

lemma not_isKnown_family (hdeps : ∀ n ∈ g.nodes, ∀ q ∈ n.dataDeps, q < g.size) {i : Nat}
    {n : Node P} (hn : g.nodes[i]? = some n) (hunbounded : .unbounded ∈ n.loopDeps) {v : Var}
    (hv : v ∈ n.definitions) : ¬ ((g.family decides seed).get i).isKnown v := by
  have hnever : .never i v ∈ g.constraints :=
    mem_constraints.2 ⟨i, n, hn,
      mem_node_constraints.2 (.inr ⟨v, hv, .inr (.inr ⟨hunbounded, rfl⟩)⟩)⟩
  exact Family.not_isKnown_settle (Family.within_replicate seed g.size)
    (fun _ hc => inRange_of_mem_constraints hdeps hc) hnever

end DependencyGraph

namespace Flow

variable {P : Type} [DecidableEq P]

/-- **An unbounded loop has no way out.** A node depends on one exactly if its uses come round again
and all that is reached from it comes back to it and has a single way on; so a point without a way
on is never reached from there. What the node defines is unknown there in every solution, whatever
the seed and the choices, which need not be monotone. -/
theorem unbounded_endless (f : Flow P) {i : Nat} {n : Node P}
    (hn : f.dependencies.nodes[i]? = some n) :
    (.unbounded ∈ n.loopDeps ↔ f.Carried n.point ∧
      ∀ q, f.Reaches n.point q → f.Ahead q n.point ∧ ∃ r, f.successors q = [r]) ∧
    (f.Carried n.point → ∀ q, f.Reaches n.point q → f.successors q = [] →
      .unbounded ∉ n.loopDeps) ∧
    (.unbounded ∈ n.loopDeps → ∀ (decides : P → Division → Bool) (seed : Division),
      ∀ v ∈ n.definitions, ∃ d, (f.dependencies.solve decides seed).get? n.point = some d ∧
        d.isKnown v = false) := by
  have hround : .unbounded ∈ n.loopDeps ↔ f.Carried n.point ∧
      ∀ q, f.Reaches n.point q → f.Ahead q n.point ∧ ∃ r, f.successors q = [r] := by
    obtain ⟨p, hp, rfl, rfl⟩ := exists_point_of_node hn
    rw [unbounded_mem_loopDeps_iff hp]
    exact and_congr_right fun hcarried => not_mayEnd_iff hcarried.ahead_self
  refine ⟨hround, fun _ q hq hend hunbounded => ?_, fun hunbounded decides seed v hv => ?_⟩
  · obtain ⟨-, r, hr⟩ := (hround.1 hunbounded).2 q hq
    simp [hend] at hr
  · have hdeps : ∀ m ∈ f.dependencies.nodes, ∀ q ∈ m.dataDeps, q < f.dependencies.size :=
      fun m hm q hq => lt_size_of_mem_dataDeps hm hq
    have hwithin : (f.dependencies.family decides seed).Within seed f.dependencies.size :=
      DependencyGraph.within_family hdeps
    refine ⟨_, DependencyGraph.get?_solve f.nodup_map_point hwithin.size_eq hn, ?_⟩
    exact Bool.eq_false_iff.2 (DependencyGraph.not_isKnown_family hdeps hn hunbounded hv)

/-- Points 1 and 2 go round for ever, so what point 1 defines is unknown there, also where a choice
can be made only as long as the variable is unknown. With a way out of the round, to point 3, no
loop is unbounded. -/
theorem unbounded_endless_pair :
    let rows (out : List Nat) : Array Row :=
      #[⟨[0], [], [1]⟩, ⟨[0], [0], [2]⟩, ⟨[1], [0], 1 :: out⟩, ⟨[], [], []⟩]
    let f := ofRows (rows []) .always 0
    let g := ofRows (rows [3]) .always 0
    (∃ n d, f.dependencies.nodes[1]? = some n ∧ n.point = 1 ∧
      (∀ q, f.Reaches 1 q → f.Ahead q 1 ∧ ∃ r, f.successors q = [r]) ∧
      (f.dependencies.solve (fun _ d => !d.isKnown 0) (.ofList [(0, true), (1, true)])).get? 1 =
        some d ∧ d.isKnown 0 = false) ∧
    ∃ n, g.dependencies.nodes[1]? = some n ∧ g.Carried n.point ∧ .unbounded ∉ n.loopDeps := by
  intro rows f g
  constructor
  · have hnode : f.dependencies.nodes[1]?.map (fun n => (n.point, n.definitions, n.loopDeps)) =
        some (1, [0], [.unbounded]) := by decide +kernel
    obtain ⟨n, hn, hlists⟩ := Option.map_eq_some_iff.1 hnode
    simp only [Prod.mk.injEq] at hlists
    obtain ⟨hpoint, hdef, hloop⟩ := hlists
    obtain ⟨hround, -, hunknown⟩ := unbounded_endless f hn
    have hunbounded : .unbounded ∈ n.loopDeps := by simp [hloop]
    obtain ⟨d, hd, hv⟩ := hunknown hunbounded (fun _ d => !d.isKnown 0)
      (.ofList [(0, true), (1, true)]) 0 (by simp [hdef])
    rw [hpoint] at hround hd
    exact ⟨n, d, hn, hpoint, (hround.1 hunbounded).2, hd, hv⟩
  · have hnode : g.dependencies.nodes[1]?.map Node.point = some 1 := by decide +kernel
    obtain ⟨n, hn, hpoint⟩ := Option.map_eq_some_iff.1 hnode
    obtain ⟨-, hbounded, -⟩ := unbounded_endless g hn
    have hround : g.Ahead 1 1 := .head (b := 2) (by decide) (.single (by decide))
    have hcarried : g.Carried n.point := by
      rw [hpoint]
      exact ⟨1, .refl, hround, by decide⟩
    have hout : g.Reaches n.point 3 := by
      rw [hpoint]
      exact .head (b := 2) (by decide) (.single (by decide))
    exact ⟨n, hn, hcarried, hbounded hcarried 3 hout (by decide)⟩

end Flow

end Staged
