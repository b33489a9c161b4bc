import Staged.Flow.Table
import Staged.Proofs.Dependency
import Staged.Proofs.Solution.Sweep

/-!
The solution of a dependency graph is its greatest consistent assignment of divisions to points.
Consistency is stated in the terms of the graph, and is the same as meeting its constraints.
-/

namespace Staged

namespace Solution

variable {P : Type} [DecidableEq P]

/-- The division of a point, which is empty outside the graph. -/
def divisionAt (s : Solution P) (p : P) : Division := (s.get? p).getD .empty

end Solution

namespace DependencyGraph

variable {P : Type}

/-- What an assignment of divisions to the points may know, by the dependencies of the graph. -/
structure Consistent (g : DependencyGraph P) (decides : P → Division → Bool) (seed : Division)
    (F : P → Division) : Prop where
  le_seed : ∀ n ∈ g.nodes, (F n.point).le seed
  le_dataDep : ∀ n ∈ g.nodes, ∀ q ∈ n.dataDeps, ∀ m, g.nodes[q]? = some m →
    (F n.point).le (F m.point)
  /-- A defined variable is known only together with all that the node uses. -/
  knows_uses : ∀ n ∈ g.nodes, ∀ v ∈ n.definitions, (F n.point).isKnown v →
    ∀ u ∈ n.uses, (F n.point).isKnown u
  decides_guard : ∀ n ∈ g.nodes, ∀ v ∈ n.definitions, (F n.point).isKnown v →
    ∀ r, .branch r ∈ n.loopDeps → ∃ m, g.nodes[r]? = some m ∧ decides m.point (F m.point)
  bounded : ∀ n ∈ g.nodes, ∀ v ∈ n.definitions, (F n.point).isKnown v → .unbounded ∉ n.loopDeps

variable {g : DependencyGraph P} {decides : P → Division → Bool} {seed : Division}

/-- The divisions of the points, by the numbers of the nodes. -/
def atNode (g : DependencyGraph P) (F : P → Division) (i : Nat) : Division :=
  (g.nodes[i]?.map fun n => F n.point).getD .empty

lemma atNode_eq {F : P → Division} {i : Nat} {n : Node P} (h : g.nodes[i]? = some n) :
    g.atNode F i = F n.point := by
  simp [atNode, h]

lemma mem_constraints {c : Constraint} :
    c ∈ g.constraints ↔ ∃ i, ∃ n : Node P, g.nodes[i]? = some n ∧ c ∈ n.constraints i := by
  simp only [constraints, List.mem_flatten, Array.mem_toList_iff, Array.mem_mapIdx]
  constructor
  · rintro ⟨l, ⟨i, hi, rfl⟩, hc⟩
    exact ⟨i, g.nodes[i], Array.getElem?_eq_getElem hi, hc⟩
  · rintro ⟨i, n, hn, hc⟩
    obtain ⟨hi, rfl⟩ := Array.getElem?_eq_some_iff.1 hn
    exact ⟨_, ⟨i, hi, rfl⟩, hc⟩

lemma mem_node_constraints {c : Constraint} {i : Nat} {n : Node P} :
    c ∈ n.constraints i ↔ (∃ q ∈ n.dataDeps, c = .below i q) ∨ ∃ v ∈ n.definitions,
      (∃ u ∈ n.uses, c = .needs i v u) ∨ (∃ r, .branch r ∈ n.loopDeps ∧ c = .guarded i v r) ∨
        .unbounded ∈ n.loopDeps ∧ c = .never i v := by
  simp only [Node.constraints, List.mem_append, List.mem_map, List.mem_flatMap]
  refine or_congr (by simp [eq_comm]) (exists_congr fun v => and_congr_right fun _ => ?_)
  refine or_congr (by simp [eq_comm]) ⟨?_, ?_⟩
  · rintro ⟨dep, hdep, rfl⟩
    cases dep with
    | branch r => exact .inl ⟨r, hdep, rfl⟩
    | unbounded => exact .inr ⟨hdep, rfl⟩
  · rintro (⟨r, hr, rfl⟩ | ⟨hu, rfl⟩)
    · exact ⟨_, hr, rfl⟩
    · exact ⟨_, hu, rfl⟩

lemma decidesAt_atNode {F : P → Division} {r : Nat} :
    g.decidesAt decides r (g.atNode F r) ↔
      ∃ m, g.nodes[r]? = some m ∧ decides m.point (F m.point) := by
  cases h : g.nodes[r]? <;> simp [decidesAt, atNode, h]

lemma decidesAt_mono (mono : ∀ p d e, d.le e → decides p d → decides p e) (i : Nat)
    (d e : Division) (hde : d.le e) (h : g.decidesAt decides i d) : g.decidesAt decides i e := by
  unfold decidesAt at h ⊢
  cases hn : g.nodes[i]? with
  | none => simp [hn] at h
  | some n =>
    rw [hn] at h
    exact mono n.point d e hde h

/-- An assignment is consistent if it lies below the seed and meets all constraints. -/
lemma consistent_iff (hdeps : ∀ n ∈ g.nodes, ∀ q ∈ n.dataDeps, q < g.size) {F : P → Division} :
    g.Consistent decides seed F ↔ (∀ n ∈ g.nodes, (F n.point).le seed) ∧
      ∀ c ∈ g.constraints, c.Holds (g.decidesAt decides) (g.atNode F) := by
  constructor
  · intro h
    refine ⟨h.le_seed, fun c hc j w hw => ?_⟩
    obtain ⟨i, n, hn, hc⟩ := mem_constraints.1 hc
    have hmem : n ∈ g.nodes := Array.mem_of_getElem? hn
    rcases mem_node_constraints.1 hc with
      ⟨q, hq, rfl⟩ | ⟨v, hv, ⟨u, hu, rfl⟩ | ⟨r, hr, rfl⟩ | ⟨hu, rfl⟩⟩
    · rintro rfl
      obtain ⟨m, hm⟩ : ∃ m, g.nodes[q]? = some m :=
        ⟨_, Array.getElem?_eq_getElem (hdeps n hmem q hq)⟩
      rw [atNode_eq hn] at hw
      rw [atNode_eq hm]
      exact Division.le_iff.1 (h.le_dataDep n hmem q hq m hm) w hw
    · rintro rfl rfl
      rw [atNode_eq hn] at hw ⊢
      exact h.knows_uses n hmem w hv hw u hu
    · rintro rfl rfl
      rw [atNode_eq hn] at hw
      exact decidesAt_atNode.2 (h.decides_guard n hmem w hv hw r hr)
    · rintro ⟨rfl, rfl⟩
      rw [atNode_eq hn] at hw
      exact h.bounded n hmem w hv hw hu
  · rintro ⟨hseed, hold⟩
    have hold {n : Node P} (hmem : n ∈ g.nodes) : ∃ i, g.nodes[i]? = some n ∧
        ∀ c ∈ n.constraints i, ∀ w, (F n.point).isKnown w →
          c.Allows (g.decidesAt decides) (g.atNode F) i w := by
      obtain ⟨i, hn⟩ := Array.getElem?_of_mem hmem
      refine ⟨i, hn, fun c hc w hw => hold c (mem_constraints.2 ⟨i, n, hn, hc⟩) i w ?_⟩
      rwa [atNode_eq hn]
    refine ⟨hseed, fun n hn q hq m hm => ?_, fun n hn v hv hk u hu => ?_,
      fun n hn v hv hk r hr => ?_, fun n hn v hv hk hu => ?_⟩
    · obtain ⟨i, hi, hall⟩ := hold hn
      refine Division.le_iff.2 fun w hw => ?_
      rw [← atNode_eq (F := F) hm]
      exact hall _ (mem_node_constraints.2 (.inl ⟨q, hq, rfl⟩)) w hw rfl
    · obtain ⟨i, hi, hall⟩ := hold hn
      rw [← atNode_eq (F := F) hi]
      exact hall _ (mem_node_constraints.2 (.inr ⟨v, hv, .inl ⟨u, hu, rfl⟩⟩)) v hk rfl rfl
    · obtain ⟨i, hi, hall⟩ := hold hn
      have := hall _ (mem_node_constraints.2 (.inr ⟨v, hv, .inr (.inl ⟨r, hr, rfl⟩)⟩)) v hk rfl rfl
      exact decidesAt_atNode.1 this
    · obtain ⟨i, hi, hall⟩ := hold hn
      exact hall _ (mem_node_constraints.2 (.inr ⟨v, hv, .inr (.inr ⟨hu, rfl⟩)⟩)) v hk ⟨rfl, rfl⟩

lemma inRange_of_mem_constraints (hdeps : ∀ n ∈ g.nodes, ∀ q ∈ n.dataDeps, q < g.size)
    {c : Constraint} (hc : c ∈ g.constraints) : c.InRange g.size := by
  obtain ⟨i, n, hn, hc⟩ := mem_constraints.1 hc
  rcases mem_node_constraints.1 hc with
    ⟨q, hq, rfl⟩ | ⟨v, hv, ⟨u, hu, rfl⟩ | ⟨r, hr, rfl⟩ | ⟨hu, rfl⟩⟩
  · exact hdeps n (Array.mem_of_getElem? hn) q hq
  all_goals exact trivial

lemma atNode_le_replicate {F : P → Division} (hF : ∀ n ∈ g.nodes, (F n.point).le seed) (i : Nat) :
    (g.atNode F i).le (Family.get (Array.replicate g.size seed) i) := by
  cases hn : g.nodes[i]? with
  | none => exact Division.le_iff.2 fun v hv => by simp [atNode, hn] at hv
  | some n =>
    have hi : i < g.size := (Array.getElem?_eq_some_iff.1 hn).1
    have hget : Family.get (Array.replicate g.size seed) i = seed := by simp [Family.get, hi]
    rw [atNode_eq hn, hget]
    exact hF n (Array.mem_of_getElem? hn)

/-! ### The solution -/

lemma points_solve (hsize : (g.family decides seed).size = g.size) :
    (g.solve decides seed).divisions.map (·.1) = g.nodes.toList.map Node.point :=
  List.map_fst_zip (by simp [hsize, size])

variable [DecidableEq P]

/-- Where every point has one node, the solution stores the division of that node. -/
lemma get?_solve (hnodup : (g.nodes.toList.map Node.point).Nodup)
    (hsize : (g.family decides seed).size = g.size) {i : Nat} {n : Node P}
    (hn : g.nodes[i]? = some n) :
    (g.solve decides seed).get? n.point = some ((g.family decides seed).get i) := by
  obtain ⟨hi, rfl⟩ := Array.getElem?_eq_some_iff.1 hn
  have hi' : i < (g.family decides seed).size := hsize ▸ hi
  have hfind : (g.solve decides seed).divisions.find? (·.1 = g.nodes[i].point) =
      some (g.nodes[i].point, (g.family decides seed).get i) := by
    refine List.find?_eq_some_iff_getElem.2 ⟨by simp, i, by simpa [solve] using ⟨hi, hi'⟩, ?_⟩
    refine ⟨by simp [solve, Family.get, hi'], fun j hj => ?_⟩
    -- an earlier node has another point
    have hne := List.pairwise_iff_getElem.1 hnodup j i (by simpa using hj.trans hi) (by simpa) hj
    simpa [solve] using hne
  rw [Solution.get?, hfind, Option.map_some]

/-- Read by the nodes, the solution is the family of divisions that it was made of. -/
lemma atNode_solve (hnodup : (g.nodes.toList.map Node.point).Nodup)
    (hsize : (g.family decides seed).size = g.size) (i : Nat) :
    g.atNode (g.solve decides seed).divisionAt i = (g.family decides seed).get i := by
  cases hn : g.nodes[i]? with
  | none =>
    have hi : (g.family decides seed).size ≤ i := by
      rw [hsize]
      exact Array.getElem?_eq_none_iff.1 hn
    rw [Family.get_of_size_le hi, atNode, hn]
    rfl
  | some n =>
    rw [atNode_eq hn, Solution.divisionAt, get?_solve hnodup hsize hn, Option.getD_some]

end DependencyGraph

namespace Flow

variable {P : Type} [DecidableEq P]

/-- **The solution is the greatest consistent assignment.** Where choices are monotone in what is
known, the solution of a flow is consistent, and no consistent assignment knows more anywhere. It
has exactly one division for each node, which stores an answer wherever the seed does. -/
theorem solve_greatest (f : Flow P)
    (mono : ∀ p d e, d.le e → f.decides p d → f.decides p e) (seed : Division) :
    let g := f.dependencies
    let s := g.solve f.decides seed
    g.Consistent f.decides seed s.divisionAt ∧
      (∀ F, g.Consistent f.decides seed F → ∀ n ∈ g.nodes, (F n.point).le (s.divisionAt n.point)) ∧
      s.divisions.map (·.1) = g.nodes.toList.map Node.point ∧
      (g.nodes.toList.map Node.point).Nodup ∧
      ∀ n ∈ g.nodes, ∃ d, s.get? n.point = some d ∧ ∀ v, seed.Stores v → d.Stores v := by
  intro g s
  have hdeps : ∀ n ∈ g.nodes, ∀ q ∈ n.dataDeps, q < g.size := fun n hn q hq =>
    lt_size_of_mem_dataDeps hn hq
  have hnodup : (g.nodes.toList.map Node.point).Nodup := f.nodup_map_point
  have hmono : ∀ i d e, d.le e → g.decidesAt f.decides i d → g.decidesAt f.decides i e :=
    DependencyGraph.decidesAt_mono mono
  obtain ⟨hwithin, hold, hgreatest⟩ := Family.settle_greatest hmono
    (Family.within_replicate seed g.size)
    fun c hc => DependencyGraph.inRange_of_mem_constraints hdeps hc
  have hat : g.atNode s.divisionAt = (g.family f.decides seed).get :=
    funext (DependencyGraph.atNode_solve hnodup hwithin.size_eq)
  refine ⟨?_, fun F hF n hn => ?_, DependencyGraph.points_solve hwithin.size_eq, hnodup,
    fun n hn => ?_⟩
  · refine (DependencyGraph.consistent_iff hdeps).2 ⟨fun n hn => ?_, ?_⟩
    · obtain ⟨i, hi⟩ := Array.getElem?_of_mem hn
      rw [← DependencyGraph.atNode_eq (F := s.divisionAt) hi, hat]
      exact hwithin.le_seed i
    · rw [hat]
      exact hold
  · obtain ⟨hseed, hF⟩ := (DependencyGraph.consistent_iff hdeps).1 hF
    obtain ⟨i, hi⟩ := Array.getElem?_of_mem hn
    rw [← DependencyGraph.atNode_eq (F := F) hi,
      ← DependencyGraph.atNode_eq (F := s.divisionAt) hi, hat]
    exact hgreatest _ (DependencyGraph.atNode_le_replicate hseed) hF i
  · obtain ⟨i, hi⟩ := Array.getElem?_of_mem hn
    have hlt : i < g.size := (Array.getElem?_eq_some_iff.1 hi).1
    have hget := DependencyGraph.get?_solve hnodup hwithin.size_eq hi
    exact ⟨_, hget, hwithin.stores i hlt⟩

lemma decides_ofRows_mono (rows : Array Row) (guard : Guard) (entry p : Nat) (d e : Division)
    (h : d.le e) (hd : (ofRows rows guard entry).decides p d) :
    (ofRows rows guard entry).decides p e := by
  cases guard with
  | allUsesKnown =>
    simp only [ofRows, Guard.decides, List.all_eq_true] at hd ⊢
    exact fun v hv => Division.le_iff.1 h v (hd v hv)
  | always => rfl
  | never => exact hd

/-- Where variable 0 is counted up in a loop as far as the unknown variable 1, the solution knows it
at the entry, and no consistent assignment knows it anywhere else. -/
theorem solve_greatest_counting :
    let f := ofRows #[⟨[0], [], [1]⟩, ⟨[], [0, 1], [2, 3]⟩, ⟨[0], [0], [1]⟩, ⟨[], [0], []⟩]
      .allUsesKnown 0
    let seed := Division.ofList [(0, true), (1, false)]
    let s := f.dependencies.solve f.decides seed
    f.dependencies.Consistent f.decides seed s.divisionAt ∧ s.isKnown 0 0 ∧
      ∀ F, f.dependencies.Consistent f.decides seed F →
        ∀ n ∈ f.dependencies.nodes, (F n.point).isKnown 0 → n.point = 0 := by
  intro f seed s
  obtain ⟨hconsistent, hgreatest, -⟩ := solve_greatest f (decides_ofRows_mono _ _ _) seed
  refine ⟨hconsistent, by decide +kernel, fun F hF n hn h => ?_⟩
  have hsolved : ∀ n ∈ f.dependencies.nodes, (s.divisionAt n.point).isKnown 0 → n.point = 0 := by
    decide +kernel
  exact hsolved n hn (Division.le_iff.1 (hgreatest F hF n hn) 0 h)

end Flow

end Staged
