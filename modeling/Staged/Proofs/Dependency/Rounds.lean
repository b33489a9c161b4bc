import Staged.Proofs.Dependency.Paths
import Staged.Flow.Table

/-!
What the dependencies of a node list, each once, in the terms of the flow: where its uses may have
been defined, and which choices may end a round through it. A round without such a choice cannot be
left: from any point of it control goes on in one way only, and comes back.
-/

namespace Staged

namespace Flow

section

variable {P : Type} {f : Flow P} {p q : P}

lemma dependsOn_iff : f.dependsOn p q ↔ ∃ v ∈ f.uses p, v ∈ f.definitions q := by
  simp [dependsOn]

/-! ### Rounds without an end -/

/-- Where a point on a round has no choice, control goes on in one way only. -/
lemma exists_successors_eq_singleton (hend : ∀ r, ¬ f.MayEnd p r) (hpq : f.Ahead p q)
    (hqp : f.Ahead q p) : ∃ r, f.successors q = [r] := by
  have hle : ¬ 1 < (f.successors q).length := fun hlt => hend q ⟨hqp.to_reflTransGen, hpq, hlt⟩
  obtain ⟨r, hr, -⟩ := Relation.TransGen.head'_iff.1 hqp
  have hpos : 0 < (f.successors q).length := List.length_pos_of_mem hr
  exact List.length_eq_one_iff.1 (by omega)

/-- No step leads away from a round without choices. -/
lemma ahead_of_reaches (hround : f.Ahead p p) (hend : ∀ r, ¬ f.MayEnd p r) (hpq : f.Reaches p q) :
    f.Ahead q p := by
  induction hpq with
  | refl => exact hround
  | @tail q r hpq hr ih =>
    obtain ⟨r', hsuccessors⟩ :=
      exists_successors_eq_singleton hend (hround.trans_left hpq) ih
    obtain ⟨r'', hr'', hback⟩ := Relation.TransGen.head'_iff.1 ih
    -- the step back to `p` is the only one there is
    rw [hsuccessors, List.mem_singleton] at hr hr''
    exact hround.trans_right (hr.trans hr''.symm ▸ hback)

/-- From a point on a round there is no choice ahead exactly if control never leaves the round. -/
lemma not_mayEnd_iff (hround : f.Ahead p p) :
    (∀ r, ¬ f.MayEnd p r) ↔
      ∀ q, f.Reaches p q → f.Ahead q p ∧ ∃ r, f.successors q = [r] := by
  constructor
  · intro hend q hpq
    have hqp := ahead_of_reaches hround hend hpq
    exact ⟨hqp, exists_successors_eq_singleton hend (hround.trans_left hpq) hqp⟩
  · rintro h r ⟨-, hpr, hlt⟩
    obtain ⟨-, r', hr'⟩ := h r hpr.to_reflTransGen
    simp [hr'] at hlt

end

/-! ### The lists of a node -/

variable {P : Type} [DecidableEq P] {f : Flow P} {p : P}

lemma exists_point_of_node {i : Nat} {n : Node P} (hn : f.dependencies.nodes[i]? = some n) :
    ∃ p, f.Reaches f.entry p ∧ f.points.idxOf p = i ∧ f.nodeAt p = n := by
  have hi : i < f.dependencies.size := (Array.getElem?_eq_some_iff.1 hn).1
  rw [size_dependencies] at hi
  obtain ⟨p, hp, rfl⟩ := exists_point_of_lt hi
  exact ⟨p, hp, rfl, Option.some.inj ((getElem?_nodes_idxOf hp).symm.trans hn)⟩

lemma nodup_dataDeps : (f.nodeAt p).dataDeps.Nodup :=
  ((Digraph.nodup_closure _ _ _).filter _).filter _

lemma nodup_loopDeps : (f.nodeAt p).loopDeps.Nodup := by
  rw [loopDeps_nodeAt]
  split
  · split
    · exact List.nodup_singleton _
    · exact ((Digraph.nodup_closure _ _ _).filter _).map fun _ _ h => LoopDep.branch.inj h
  · exact List.nodup_nil

lemma loopDeps_eq_nil_iff (hp : f.Reaches f.entry p) :
    (f.nodeAt p).loopDeps = [] ↔ ¬ f.Carried p := by
  rw [loopDeps_nodeAt, ← any_sourcesAt_iff_carried hp]
  cases hguards : f.guardsAt p <;> split <;> simp_all

lemma loopDeps_eq_unbounded_iff (hp : f.Reaches f.entry p) :
    (f.nodeAt p).loopDeps = [.unbounded] ↔ f.Carried p ∧ ∀ r, ¬ f.MayEnd p r := by
  rw [← unbounded_mem_loopDeps_iff hp, loopDeps_nodeAt]
  cases hguards : f.guardsAt p <;> split <;> simp_all

/-- A dependency on a round is one on a choice, or there is no choice to depend on. -/
lemma mem_loopDeps_iff (hp : f.Reaches f.entry p) (hend : ∃ r, f.MayEnd p r) {dep : LoopDep} :
    dep ∈ (f.nodeAt p).loopDeps ↔ f.Carried p ∧
      ∃ j m, f.dependencies.nodes[j]? = some m ∧ f.MayEnd p m.point ∧ dep = .branch j := by
  constructor
  · intro hdep
    cases dep with
    | unbounded =>
      obtain ⟨-, hnone⟩ := (unbounded_mem_loopDeps_iff hp).1 hdep
      obtain ⟨r, hr⟩ := hend
      exact absurd hr (hnone r)
    | branch j =>
      obtain ⟨r, hr, rfl⟩ := exists_point_of_mem_loopDeps hp hdep
      obtain ⟨hcarried, hmay⟩ := (branch_mem_loopDeps_iff hp hr).1 hdep
      exact ⟨hcarried, _, _, getElem?_nodes_idxOf hr, hmay, rfl⟩
  · rintro ⟨hcarried, j, m, hm, hmay, rfl⟩
    obtain ⟨r, hr, rfl, rfl⟩ := exists_point_of_node hm
    exact (branch_mem_loopDeps_iff hp hr).2 ⟨hcarried, hmay⟩

lemma mem_dataDeps_iff (hp : f.Reaches f.entry p) {j : Nat} :
    j ∈ (f.nodeAt p).dataDeps ↔ ∃ m, f.dependencies.nodes[j]? = some m ∧ m.point ≠ p ∧
      f.Reaches m.point p ∧ ∃ v ∈ f.uses p, v ∈ f.definitions m.point := by
  simp only [← dependsOn_iff]
  constructor
  · intro hj
    obtain ⟨q, hq, rfl⟩ := exists_point_of_mem_dataDeps hp hj
    obtain ⟨hqp, hne, hdepends⟩ := (mem_dataDeps_idxOf_iff hp hq).1 hj
    exact ⟨_, getElem?_nodes_idxOf hq, hne, hqp, hdepends⟩
  · rintro ⟨m, hm, hne, hqp, hdepends⟩
    obtain ⟨q, hq, rfl, rfl⟩ := exists_point_of_node hm
    exact (mem_dataDeps_idxOf_iff hp hq).2 ⟨hqp, hne, hdepends⟩

/-- **The dependencies of a node.** Its data dependencies are, each once, the other nodes from which
it is reached and which define something that it uses. It has loop dependencies exactly if such a
definition, its own included, comes round again; and these are then, each once, all the choices that
may end a round through it, or a single unbounded one where there is no such choice. -/
theorem dependencies_exact (f : Flow P) {i : Nat} {n : Node P}
    (hn : f.dependencies.nodes[i]? = some n) :
    let g := f.dependencies
    (n.dataDeps.Nodup ∧ ∀ j, j ∈ n.dataDeps ↔ j ≠ i ∧ ∃ m, g.nodes[j]? = some m ∧
      f.Reaches m.point n.point ∧ ∃ v ∈ n.uses, v ∈ m.definitions) ∧
    (n.loopDeps ≠ [] ↔ ∃ m ∈ g.nodes, f.Reaches m.point n.point ∧ f.Ahead n.point m.point ∧
      ∃ v ∈ n.uses, v ∈ m.definitions) ∧
    (n.loopDeps ≠ [] → n.loopDeps.Nodup ∧
      ((∃ m ∈ g.nodes, f.MayEnd n.point m.point) → ∀ dep, dep ∈ n.loopDeps ↔
        ∃ j m, g.nodes[j]? = some m ∧ f.MayEnd n.point m.point ∧ dep = .branch j) ∧
      ((∀ m ∈ g.nodes, ¬ f.MayEnd n.point m.point) → n.loopDeps = [.unbounded])) := by
  intro g
  obtain ⟨p, hp, rfl, rfl⟩ := exists_point_of_node hn
  have hcarried : (f.nodeAt p).loopDeps ≠ [] ↔ f.Carried p := by
    rw [ne_eq, loopDeps_eq_nil_iff hp, not_not]
  have hnode {r : P} (hr : f.Ahead p r) : f.nodeAt r ∈ g.nodes :=
    mem_nodes_iff.2 ⟨r, hp.ahead hr, rfl⟩
  refine ⟨⟨nodup_dataDeps, fun j => ?_⟩, hcarried.trans ?_, fun h => ⟨nodup_loopDeps, ?_, ?_⟩⟩
  · rw [mem_dataDeps_iff hp, ← exists_and_left]
    refine exists_congr fun m => ?_
    constructor
    · rintro ⟨hm, hne, hrest⟩
      obtain ⟨q, hq, rfl, rfl⟩ := exists_point_of_node hm
      exact ⟨fun h => hne ((idxOf_inj hq).1 h), hm, hrest⟩
    · rintro ⟨hne, hm, hrest⟩
      obtain ⟨q, hq, rfl, rfl⟩ := exists_point_of_node hm
      exact ⟨hm, fun h => hne ((idxOf_inj hq).2 h), hrest⟩
  · constructor
    · rintro ⟨q, hqp, hpq, hdepends⟩
      exact ⟨f.nodeAt q, hnode hpq, hqp, hpq, dependsOn_iff.1 hdepends⟩
    · rintro ⟨m, hm, hmp, hpm, hdepends⟩
      obtain ⟨q, -, rfl⟩ := mem_nodes_iff.1 hm
      exact ⟨q, hmp, hpm, dependsOn_iff.2 hdepends⟩
  · rintro ⟨m, -, hm⟩ dep
    rw [mem_loopDeps_iff hp ⟨m.point, hm⟩, and_iff_right (hcarried.1 h)]
    rfl
  · intro hnone
    refine (loopDeps_eq_unbounded_iff hp).2 ⟨hcarried.1 h, fun r hr => ?_⟩
    exact hnone _ (hnode hr.2.1) hr

/-- Point 0 has two edges to point 1, point 1 goes on to point 3 or round by point 2. Of the two
choices before point 1 only its own comes round again. -/
theorem dependencies_exact_parallel :
    let f := ofRows #[⟨[], [], [1, 1]⟩, ⟨[0], [0, 1], [2, 3]⟩, ⟨[1], [], [1]⟩, ⟨[], [0], []⟩]
      .allUsesKnown 0
    ∃ n, f.dependencies.nodes[1]? = some n ∧ n.dataDeps = [2] ∧ n.loopDeps = [.branch 1] ∧
      f.Ahead n.point 1 ∧ ¬ f.Ahead n.point 0 := by
  intro f
  have hnode : f.dependencies.nodes[1]?.map (fun n => (n.point, n.dataDeps, n.loopDeps)) =
      some (1, [2], [.branch 1]) := by decide +kernel
  have hfirst : f.dependencies.nodes[0]?.map Node.point = some 0 := by decide +kernel
  obtain ⟨n, hn, hlists⟩ := Option.map_eq_some_iff.1 hnode
  obtain ⟨m₀, hm₀, hpoint₀⟩ := Option.map_eq_some_iff.1 hfirst
  simp only [Prod.mk.injEq] at hlists
  obtain ⟨hpoint, hdata, hloop⟩ := hlists
  obtain ⟨-, -, hdeps⟩ := dependencies_exact f hn
  obtain ⟨-, hbranches, hunbounded⟩ := hdeps (by simp [hloop])
  -- the list is not the unbounded one, so there is a choice
  have hsome : ∃ m ∈ f.dependencies.nodes, f.MayEnd n.point m.point := by
    by_contra hnone
    have := hunbounded fun m hm hmay => hnone ⟨m, hm, hmay⟩
    simp [hloop] at this
  refine ⟨n, hn, hdata, hloop, ?_, fun hahead => ?_⟩
  · obtain ⟨j, m, hm, ⟨-, hahead, -⟩, heq⟩ := (hbranches hsome (.branch 1)).1 (by simp [hloop])
    obtain rfl := LoopDep.branch.inj heq
    obtain rfl := Option.some.inj (hn.symm.trans hm)
    rwa [hpoint] at hahead ⊢
  · have hreaches : f.Reaches 0 1 := .single (by decide)
    have hmay : f.MayEnd n.point m₀.point := by
      rw [hpoint] at hahead ⊢
      rw [hpoint₀]
      exact ⟨hreaches, hahead, by decide⟩
    have hmem := (hbranches hsome (.branch 0)).2 ⟨0, m₀, hm₀, hmay, rfl⟩
    simp [hloop] at hmem

end Flow

end Staged
