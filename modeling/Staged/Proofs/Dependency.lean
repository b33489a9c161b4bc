import Staged.Dependency
import Mathlib.Data.List.Nodup

/-!
The nodes of a dependency graph: one for each point of the flow that is reachable from the entry, in
the order of discovery, with dependencies on nodes of the graph only.
-/

namespace Staged

namespace Digraph

lemma lt_size_of_mem_closure {g : Digraph} {next : Nat → List Nat} {starts : List Nat} {a : Nat}
    (h : a ∈ g.closure next starts) : a < g.size :=
  List.mem_range.1 (List.mem_filter.1 h).1

lemma nodup_closure (g : Digraph) (next : Nat → List Nat) (starts : List Nat) :
    (g.closure next starts).Nodup :=
  List.nodup_range.filter _

end Digraph

namespace Flow

variable {P : Type} [DecidableEq P] (f : Flow P)

lemma nodup_points : f.points.Nodup := nodup_eraseDups _

@[simp] lemma size_dependencies : f.dependencies.size = f.points.length := by
  simp [dependencies, DependencyGraph.size]

lemma getElem?_nodes_dependencies (i : Nat) :
    f.dependencies.nodes[i]? = f.points[i]?.map (f.node f.shape f.points.toArray i) := by
  simp [dependencies]

lemma map_point_dependencies :
    f.dependencies.nodes.toList.map Node.point = f.points := by
  refine List.ext_getElem? fun i => ?_
  rw [List.getElem?_map, Array.getElem?_toList, getElem?_nodes_dependencies, Option.map_map]
  cases f.points[i]? <;> rfl

/-- No two nodes have the same point. -/
lemma nodup_map_point : (f.dependencies.nodes.toList.map Node.point).Nodup := by
  rw [map_point_dependencies]
  exact f.nodup_points

lemma lt_size_of_mem_dataDeps {f : Flow P} {q : Nat} {n : Node P} (hn : n ∈ f.dependencies.nodes)
    (hq : q ∈ n.dataDeps) : q < f.dependencies.size := by
  obtain ⟨i, hi⟩ := Array.getElem?_of_mem hn
  rw [getElem?_nodes_dependencies, Option.map_eq_some_iff] at hi
  obtain ⟨p, -, rfl⟩ := hi
  simp only [node, List.mem_filter] at hq
  rw [size_dependencies]
  exact Digraph.lt_size_of_mem_closure hq.1.1

lemma lt_size_of_branch_mem_loopDeps {f : Flow P} {r : Nat} {n : Node P}
    (hn : n ∈ f.dependencies.nodes) (hr : .branch r ∈ n.loopDeps) : r < f.dependencies.size := by
  obtain ⟨i, hi⟩ := Array.getElem?_of_mem hn
  rw [getElem?_nodes_dependencies, Option.map_eq_some_iff] at hi
  obtain ⟨p, -, rfl⟩ := hi
  simp only [node] at hr
  split at hr
  · split at hr
    · simp at hr
    · simp only [List.mem_map, List.mem_filter, LoopDep.branch.injEq, exists_eq_right] at hr
      rw [size_dependencies]
      exact Digraph.lt_size_of_mem_closure hr.1
  · simp at hr

end Flow

end Staged
