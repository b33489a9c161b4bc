import Staged.Proofs.Dependency.Paths
import Staged.Proofs.Solution.Knowledge

/-!
The solution of a flow without its dependency graph. Consistency is stated by the paths of the flow,
and a variable is known at a point exactly if some consistent assignment of divisions knows it
there.
-/

namespace Staged.Flow

variable {P : Type} {f : Flow P} {seed : Division} {F : P → Division} {p : P}

/-- What an assignment of divisions may know at the points that can be reached, by the paths between
these points. -/
structure Consistent (f : Flow P) (seed : Division) (F : P → Division) : Prop where
  le_seed : ∀ p, f.Reaches f.entry p → (F p).le seed
  le_source : ∀ p q, f.Reaches f.entry q → f.Reaches q p → q ≠ p → f.dependsOn p q →
    (F p).le (F q)
  /-- A defined variable is known only together with all that the point uses. -/
  knows_uses : ∀ p, f.Reaches f.entry p → ∀ v ∈ f.definitions p, (F p).isKnown v →
    ∀ u ∈ f.uses p, (F p).isKnown u
  decides_guard : ∀ p, f.Reaches f.entry p → ∀ v ∈ f.definitions p, (F p).isKnown v →
    f.Carried p → ∀ r, f.MayEnd p r → f.decides r (F r)
  bounded : ∀ p, f.Reaches f.entry p → ∀ v ∈ f.definitions p, (F p).isKnown v →
    f.Carried p → ∃ r, f.MayEnd p r

/-- With a greater seed no less is consistent. -/
lemma Consistent.mono_seed {seed' : Division} (h : f.Consistent seed F) (hle : seed.le seed') :
    f.Consistent seed' F :=
  { h with le_seed := fun p hp => Division.le_trans (h.le_seed p hp) hle }

variable [DecidableEq P]

lemma consistent_of_dependencies (h : f.dependencies.Consistent f.decides seed F) :
    f.Consistent seed F := by
  have hnode {p : P} (hp : f.Reaches f.entry p) : f.nodeAt p ∈ f.dependencies.nodes :=
    mem_nodes_iff.2 ⟨p, hp, rfl⟩
  refine ⟨fun p hp => h.le_seed _ (hnode hp), fun p q hq hqp hne hdepends => ?_,
    fun p hp => h.knows_uses _ (hnode hp), fun p hp v hv hk hcarried r hr => ?_,
    fun p hp v hv hk hcarried => ?_⟩
  · have hp : f.Reaches f.entry p := hq.trans hqp
    have hdep := (mem_dataDeps_idxOf_iff hp hq).2 ⟨hqp, hne, hdepends⟩
    exact h.le_dataDep _ (hnode hp) _ hdep _ (getElem?_nodes_idxOf hq)
  · have hreach : f.Reaches f.entry r := hp.ahead hr.2.1
    have hdep := (branch_mem_loopDeps_iff hp hreach).2 ⟨hcarried, hr⟩
    obtain ⟨m, hm, hdecides⟩ := h.decides_guard _ (hnode hp) v hv hk _ hdep
    obtain rfl := Option.some.inj ((getElem?_nodes_idxOf hreach).symm.trans hm)
    exact hdecides
  · by_contra hnone
    exact h.bounded _ (hnode hp) v hv hk
      ((unbounded_mem_loopDeps_iff hp).2 ⟨hcarried, not_exists.1 hnone⟩)

lemma Consistent.dependencies (h : f.Consistent seed F) :
    f.dependencies.Consistent f.decides seed F := by
  refine ⟨fun n hn => ?_, fun n hn i hi m hm => ?_, fun n hn => ?_, fun n hn v hv hk i hi => ?_,
    fun n hn v hv hk hu => ?_⟩ <;> obtain ⟨p, hp, rfl⟩ := mem_nodes_iff.1 hn
  · exact h.le_seed p hp
  · obtain ⟨q, hq, rfl⟩ := exists_point_of_mem_dataDeps hp hi
    obtain rfl := Option.some.inj ((getElem?_nodes_idxOf hq).symm.trans hm)
    obtain ⟨hqp, hne, hdepends⟩ := (mem_dataDeps_idxOf_iff hp hq).1 hi
    exact h.le_source p q hq hqp hne hdepends
  · exact h.knows_uses p hp
  · obtain ⟨r, hr, rfl⟩ := exists_point_of_mem_loopDeps hp hi
    obtain ⟨hcarried, hend⟩ := (branch_mem_loopDeps_iff hp hr).1 hi
    exact ⟨_, getElem?_nodes_idxOf hr, h.decides_guard p hp v hv hk hcarried r hend⟩
  · obtain ⟨hcarried, hnone⟩ := (unbounded_mem_loopDeps_iff hp).1 hu
    obtain ⟨r, hr⟩ := h.bounded p hp v hv hk hcarried
    exact hnone r hr

/-! ### The solution -/

/-- The solution has a division for each point that can be reached, and for no other. -/
lemma isSome_get?_solve (mono : ∀ p d e, d.le e → f.decides p d → f.decides p e)
    (seed : Division) :
    ((f.dependencies.solve f.decides seed).get? p).isSome ↔ f.Reaches f.entry p := by
  have hsize := (family_greatest mono seed).1.size_eq
  constructor
  · intro h
    obtain ⟨d, hd⟩ := Option.isSome_iff_exists.1 h
    obtain ⟨e, he, -⟩ := Option.map_eq_some_iff.1 hd
    have hmem : p ∈ (f.dependencies.solve f.decides seed).divisions.map (·.1) :=
      List.mem_map.2 ⟨e, List.mem_of_find?_eq_some he, by simpa using List.find?_some he⟩
    rw [DependencyGraph.points_solve hsize, map_point_dependencies] at hmem
    exact mem_points_iff_reaches.1 hmem
  · intro hp
    have hget := DependencyGraph.get?_solve f.nodup_map_point hsize (getElem?_nodes_idxOf hp)
    exact Option.isSome_iff_exists.2 ⟨_, hget⟩

/-- What the solution knows is what some consistent assignment knows. -/
theorem isKnown_solve_iff (mono : ∀ p d e, d.le e → f.decides p d → f.decides p e)
    (hp : f.Reaches f.entry p) {v : Var} :
    (f.dependencies.solve f.decides seed).isKnown p v ↔
      ∃ F, f.Consistent seed F ∧ (F p).isKnown v := by
  have hdeps : ∀ n ∈ f.dependencies.nodes, ∀ q ∈ n.dataDeps, q < f.dependencies.size :=
    fun n hn q hq => lt_size_of_mem_dataDeps hn hq
  have hknows : (f.dependencies.solve f.decides seed).isKnown p v ↔
      f.Knows seed (f.points.idxOf p) v := by
    simpa only [point_nodeAt] using isKnown_solve_iff_knows mono (getElem?_nodes_idxOf hp)
  obtain ⟨hwithin, hold, hgreatest⟩ := family_greatest mono seed
  rw [hknows]
  constructor
  · intro hv
    let s := f.dependencies.solve f.decides seed
    have hat : f.dependencies.atNode s.divisionAt = (f.dependencies.family f.decides seed).get :=
      funext (DependencyGraph.atNode_solve f.nodup_map_point hwithin.size_eq)
    have hF : f.dependencies.Consistent f.decides seed s.divisionAt := by
      refine (DependencyGraph.consistent_iff hdeps).2 ⟨fun n hn => ?_, hat ▸ hold⟩
      obtain ⟨i, hi⟩ := Array.getElem?_of_mem hn
      rw [← DependencyGraph.atNode_eq (F := s.divisionAt) hi, hat]
      exact hwithin.le_seed i
    refine ⟨s.divisionAt, consistent_of_dependencies hF, ?_⟩
    have hatp := DependencyGraph.atNode_eq (F := s.divisionAt) (getElem?_nodes_idxOf hp)
    rw [point_nodeAt, hat] at hatp
    exact hatp ▸ hv
  · rintro ⟨F, hF, hv⟩
    obtain ⟨hseed, hF⟩ := (DependencyGraph.consistent_iff hdeps).1 hF.dependencies
    have hle := hgreatest _ (DependencyGraph.atNode_le_replicate hseed) hF (f.points.idxOf p)
    rw [DependencyGraph.atNode_eq (getElem?_nodes_idxOf hp), point_nodeAt] at hle
    exact Division.le_iff.1 hle v hv

end Staged.Flow
