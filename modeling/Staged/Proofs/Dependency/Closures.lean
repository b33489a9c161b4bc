import Staged.Proofs.Reachability
import Staged.Flow.Table
import Mathlib.Logic.Function.Iterate

/-!
What lies before a node of a graph and what lies ahead of it. A depth-first search looks at the
nodes on its stack one by one and passes over those that it has found already. It comes to an end,
and then it has found just what can be reached from the nodes that it started with. Run backwards
from a node it finds the nodes before it; run forwards from the successors of a node, however often
they are on the stack, it finds the nodes ahead of it. So the two differ by the path without an edge
only.
-/

namespace Staged

/-- A depth-first search under way. -/
structure DepthFirst (α : Type) where
  /-- In the order in which they were taken off the stack. -/
  found : List α
  /-- What is still to be looked at, the same point perhaps more than once. -/
  stack : List α
  deriving DecidableEq, Repr

namespace DepthFirst

variable {α : Type}

/-- Found, or still to be looked at. -/
def Seen (t : DepthFirst α) (p : α) : Prop := p ∈ t.found ∨ p ∈ t.stack

/-- What a search from `starts` keeps: nothing is found twice, only what can be reached is seen, and
the starts and all that follows what was found have been seen. -/
structure Explores (next : α → List α) (starts : List α) (t : DepthFirst α) : Prop where
  nodup : t.found.Nodup
  reached : ∀ p, t.Seen p → ∃ a ∈ starts, Relation.ReflTransGen (fun p q => q ∈ next p) a p
  starts : ∀ a ∈ starts, t.Seen a
  closed : ∀ p ∈ t.found, ∀ q ∈ next p, t.Seen q

variable {next : α → List α} {found rest starts : List α} {p q : α} {t : DepthFirst α}

lemma explores_start : Explores next starts ⟨[], starts⟩ where
  nodup := List.nodup_nil
  reached p hp := ⟨p, hp.resolve_left List.not_mem_nil, .refl⟩
  starts _ ha := .inr ha
  closed _ hp := absurd hp List.not_mem_nil

/-- When nothing is left to be looked at, all that can be reached has been found. -/
lemma Explores.mem_found_iff (h : Explores next starts ⟨found, []⟩) :
    p ∈ found ↔ ∃ a ∈ starts, Relation.ReflTransGen (fun p q => q ∈ next p) a p := by
  have hfound {q : α} (hq : (⟨found, []⟩ : DepthFirst α).Seen q) : q ∈ found :=
    hq.resolve_right List.not_mem_nil
  refine ⟨fun hp => h.reached p (.inl hp), ?_⟩
  rintro ⟨a, ha, hap⟩
  induction hap with
  | refl => exact hfound (h.starts a ha)
  | tail _ hstep ih => exact hfound (h.closed _ ih _ hstep)

/-- Passing over a point that was found before loses sight of nothing. -/
lemma seen_tail_iff (h : p ∈ found) :
    (⟨found, rest⟩ : DepthFirst α).Seen q ↔ (⟨found, p :: rest⟩ : DepthFirst α).Seen q := by
  simp only [Seen, List.mem_cons]
  grind

variable [DecidableEq α]

/-- Takes one point off the stack. If it has not been found before, it is found now, and those of
its successors that have not been found are put on the stack, the last one on top. -/
def step (next : α → List α) (t : DepthFirst α) : DepthFirst α :=
  match t.stack with
  | [] => t
  | p :: rest =>
    if p ∈ t.found then { t with stack := rest }
    else
      let found := t.found ++ [p]
      ⟨found, ((next p).filter (· ∉ found)).reverse ++ rest⟩

lemma step_of_mem (h : p ∈ found) : step next ⟨found, p :: rest⟩ = ⟨found, rest⟩ := if_pos h

lemma step_of_not_mem (h : p ∉ found) : step next ⟨found, p :: rest⟩ =
    ⟨found ++ [p], ((next p).filter (· ∉ found ++ [p])).reverse ++ rest⟩ := if_neg h

/-- Where a point is found, what follows it comes into sight, and nothing else. -/
lemma seen_find_iff :
    (⟨found ++ [p], ((next p).filter (· ∉ found ++ [p])).reverse ++ rest⟩ : DepthFirst α).Seen q ↔
      (⟨found, p :: rest⟩ : DepthFirst α).Seen q ∨ q ∈ next p := by
  simp only [Seen, List.mem_append, List.mem_reverse, List.mem_filter, List.mem_cons]
  grind

lemma Explores.step (h : Explores next starts t) : Explores next starts (t.step next) := by
  obtain ⟨found, stack⟩ := t
  cases stack with
  | nil => exact h
  | cons p rest =>
    by_cases hp : p ∈ found
    · rw [step_of_mem hp]
      exact ⟨h.nodup, fun q hq => h.reached q ((seen_tail_iff hp).1 hq),
        fun a ha => (seen_tail_iff hp).2 (h.starts a ha),
        fun a ha q hq => (seen_tail_iff hp).2 (h.closed a ha q hq)⟩
    · rw [step_of_not_mem hp]
      refine ⟨?_, fun q hq => ?_, fun a ha => seen_find_iff.2 (.inl (h.starts a ha)),
        fun a ha q hq => seen_find_iff.2 ?_⟩
      · exact List.nodup_append'.2 ⟨h.nodup, List.nodup_singleton p, by simpa using hp⟩
      · rcases seen_find_iff.1 hq with hq | hq
        · exact h.reached q hq
        · obtain ⟨a, ha, hap⟩ := h.reached p (.inr List.mem_cons_self)
          exact ⟨a, ha, hap.tail hq⟩
      · rcases List.mem_append.1 ha with ha | ha
        · exact .inl (h.closed a ha q hq)
        · obtain rfl := List.mem_singleton.1 ha
          exact .inr hq

lemma Explores.iterate_step (h : Explores next starts t) (n : Nat) :
    Explores next starts ((DepthFirst.step next)^[n] t) := by
  induction n with
  | zero => exact h
  | succ n ih =>
    rw [Function.iterate_succ_apply']
    exact ih.step

end DepthFirst

namespace Digraph

open DepthFirst

/-- A bound on the steps of a search that are left: each takes one entry off the stack, and the
edges from nodes that have not been found yet may put one on it. -/
def stepsLeft (g : Digraph) (t : DepthFirst Nat) : Nat :=
  t.stack.length + (g.edges.filter (·.1 ∉ t.found)).length

lemma length_filter_not_mem_concat (edges : List (Nat × Nat)) {found : List Nat} {p : Nat}
    (h : p ∉ found) :
    (edges.filter (·.1 ∉ found)).length =
      (edges.filter (·.1 ∉ found ++ [p])).length + (edges.filter (·.1 == p)).length := by
  induction edges with
  | nil => rfl
  | cons e edges ih =>
    simp only [List.filter_cons]
    grind

lemma stepsLeft_step_lt (g : Digraph) {t : DepthFirst Nat} (h : t.stack ≠ []) :
    g.stepsLeft (t.step g.successors) < g.stepsLeft t := by
  obtain ⟨found, stack⟩ := t
  cases stack with
  | nil => exact absurd rfl h
  | cons p rest =>
    by_cases hp : p ∈ found
    · rw [step_of_mem hp]
      simp [stepsLeft]
    · rw [step_of_not_mem hp]
      have hpushed := List.length_filter_le (· ∉ found ++ [p]) (g.successors p)
      have hedges := length_filter_not_mem_concat g.edges hp
      simp only [successors, List.length_map] at hpushed
      simp only [stepsLeft, successors, List.length_append, List.length_reverse, List.length_cons]
      omega

/-- Where no steps are left, nothing is left on the stack. -/
lemma stack_iterate_step (g : Digraph) {n : Nat} {t : DepthFirst Nat} (h : g.stepsLeft t ≤ n) :
    ((DepthFirst.step g.successors)^[n] t).stack = [] := by
  induction n generalizing t with
  | zero =>
    have hlength : t.stack.length = 0 := by
      simp only [stepsLeft] at h
      omega
    exact List.length_eq_zero_iff.1 hlength
  | succ n ih =>
    by_cases hstack : t.stack = []
    · have hfixed : DepthFirst.step g.successors t = t := by rw [DepthFirst.step, hstack]
      rw [Function.iterate_fixed hfixed, hstack]
    · rw [Function.iterate_succ_apply]
      have hlt := stepsLeft_step_lt g hstack
      exact ih (by omega)

/-- A search that starts from the nodes on its stack ends with the nodes of their closure. -/
lemma exists_found_perm_closure (g : Digraph) (stack starts : List Nat)
    (hstack : ∀ a, a ∈ stack ↔ a ∈ starts) (hstarts : ∀ a ∈ starts, a < g.size) :
    ∃ found, (DepthFirst.step g.successors)^[stack.length + g.edges.length] ⟨[], stack⟩ =
      ⟨found, []⟩ ∧ found.Perm (g.closure g.successors starts) := by
  obtain ⟨found, rest, hrun⟩ : ∃ found rest,
      (DepthFirst.step g.successors)^[stack.length + g.edges.length] ⟨[], stack⟩ = ⟨found, rest⟩ :=
    ⟨_, _, rfl⟩
  have hexplores : Explores g.successors stack ⟨found, rest⟩ := hrun ▸ explores_start.iterate_step _
  have hsteps : g.stepsLeft ⟨[], stack⟩ ≤ stack.length + g.edges.length := by simp [stepsLeft]
  obtain rfl : rest = [] := by simpa only [hrun] using stack_iterate_step g hsteps
  refine ⟨found, hrun, ?_⟩
  rw [List.perm_ext_iff_of_nodup hexplores.nodup (g.nodup_closure _ _)]
  intro b
  rw [hexplores.mem_found_iff, mem_closure_iff successors_lt_size hstarts]
  simp only [hstack]

/-! ### Backwards -/

/-- Every edge turned round. -/
def reverse (g : Digraph) : Digraph where
  size := g.size
  edges := g.edges.map Prod.swap
  bounded e he := by
    obtain ⟨e', he', rfl⟩ := List.mem_map.1 he
    exact (g.bounded e' he').symm

@[simp] lemma size_reverse (g : Digraph) : g.reverse.size = g.size := rfl

@[simp] lemma length_edges_reverse (g : Digraph) : g.reverse.edges.length = g.edges.length :=
  List.length_map _

lemma successors_reverse (g : Digraph) : g.reverse.successors = g.predecessors := by
  funext b
  simp only [successors, reverse, predecessors, List.filter_map, List.map_map]
  rfl

lemma exists_found_perm_precursors (g : Digraph) {b : Nat} (hb : b < g.size) :
    ∃ found, (DepthFirst.step g.predecessors)^[1 + g.edges.length] ⟨[], [b]⟩ = ⟨found, []⟩ ∧
      found.Perm (g.precursors b) := by
  have hfound := g.reverse.exists_found_perm_closure [b] [b] (fun _ => Iff.rfl) (by simpa using hb)
  rwa [successors_reverse, length_edges_reverse] at hfound

lemma exists_found_perm_reachableAgain (g : Digraph) (a : Nat) :
    ∃ found, (DepthFirst.step g.successors)^[g.outDegree a + g.edges.length]
      ⟨[], (g.successors a).reverse⟩ = ⟨found, []⟩ ∧ found.Perm (g.reachableAgain a) := by
  have hfound := g.exists_found_perm_closure (g.successors a).reverse (g.successors a)
    (fun _ => List.mem_reverse) (successors_lt_size a)
  rwa [List.length_reverse] at hfound

/-! ### The two closures -/

/-- What lies before a node is the node itself and that from which it is reached along an edge. -/
lemma mem_precursors_iff_eq_or_mem_reachableAgain {g : Digraph} {a b : Nat} (hb : b < g.size) :
    a ∈ g.precursors b ↔ a = b ∨ b ∈ g.reachableAgain a := by
  rw [mem_precursors_iff hb, mem_reachableAgain_iff, Relation.reflTransGen_iff_eq_or_transGen,
    eq_comm]

lemma reaches_iff_mem_reachableAgain {g : Digraph} {a b : Nat} :
    g.reaches a b ↔ b ∈ g.reachableAgain a := by
  rw [reaches, List.contains_iff_mem]

end Digraph

namespace Flow

variable {P : Type} [DecidableEq P]

/-- **The closures of a dependency graph mirror each other.** The precursors of a node are, each
once, the nodes with a path to it, which may have no edge; what can be reached again from a node is,
each once, the nodes at the end of a path of at least one edge from it, and the node itself is among
them exactly if it lies on a cycle. So one node is before another if and only if the two are the
same or the second can be reached again from the first. A depth-first search over the edges
backwards from the one node finds the former, and one over the edges forwards, which begins with all
successors of the other node on its stack, finds the latter; both come to an end. -/
theorem closures_mirror (f : Flow P) (a : Nat) {b : Nat} (hb : b < f.dependencies.size) :
    let g := f.dependencies.shape
    let Edge : Nat → Nat → Prop := fun p q => (p, q) ∈ g.edges
    ((g.precursors b).Nodup ∧ ∀ c, c ∈ g.precursors b ↔ Relation.ReflTransGen Edge c b) ∧
    ((g.reachableAgain a).Nodup ∧ ∀ c, c ∈ g.reachableAgain a ↔ Relation.TransGen Edge a c) ∧
    (g.reaches a b ↔ Relation.TransGen Edge a b) ∧
    (a ∈ g.precursors b ↔ a = b ∨ b ∈ g.reachableAgain a) ∧
    (∃ found, (DepthFirst.step g.predecessors)^[1 + g.edges.length] ⟨[], [b]⟩ = ⟨found, []⟩ ∧
      found.Perm (g.precursors b)) ∧
    ∃ found, (DepthFirst.step g.successors)^[g.outDegree a + g.edges.length]
      ⟨[], (g.successors a).reverse⟩ = ⟨found, []⟩ ∧ found.Perm (g.reachableAgain a) := by
  intro g Edge
  have hb : b < g.size := by rwa [size_dependencies] at hb
  refine ⟨⟨g.nodup_closure _ _, fun c => Digraph.mem_precursors_iff hb⟩,
    ⟨g.nodup_closure _ _, fun c => Digraph.mem_reachableAgain_iff⟩, ?_,
    Digraph.mem_precursors_iff_eq_or_mem_reachableAgain hb, g.exists_found_perm_precursors hb,
    g.exists_found_perm_reachableAgain a⟩
  rw [Digraph.reaches_iff_mem_reachableAgain, Digraph.mem_reachableAgain_iff]

/-- The entry leads to point 1 twice and is not reached again; point 1 leads to itself and to
point 2, where all ends. -/
theorem closures_mirror_loop :
    let f := ofRows #[⟨[], [], [1, 1]⟩, ⟨[], [], [1, 2]⟩, ⟨[], [], []⟩] .always 0
    let g := f.dependencies.shape
    let Edge : Nat → Nat → Prop := fun p q => (p, q) ∈ g.edges
    1 < f.dependencies.size ∧ g.successors 0 = [1, 1] ∧ Relation.TransGen Edge 1 1 ∧
      0 ∈ g.precursors 1 ∧ 0 ∈ g.precursors 0 ∧ ¬ Relation.TransGen Edge 0 0 ∧
      (DepthFirst.step g.successors)^[6] ⟨[], [1, 1]⟩ = ⟨[1, 2], []⟩ ∧
      [1, 2].Perm (g.reachableAgain 0) := by
  intro f g Edge
  have hsize : f.dependencies.size = 3 := by decide +kernel
  have hsuccessors : g.successors 0 = [1, 1] := by decide +kernel
  have hagain : g.reaches 1 1 := by decide +kernel
  have hahead : 1 ∈ g.reachableAgain 0 := by decide +kernel
  have hnot : ¬ g.reaches 0 0 := by decide +kernel
  have hsteps : g.outDegree 0 + g.edges.length = 6 := by decide +kernel
  have hfound : (DepthFirst.step g.successors)^[6] ⟨[], [1, 1]⟩ = ⟨[1, 2], []⟩ := by
    decide +kernel
  obtain ⟨-, -, hcycle, -⟩ := closures_mirror f 1 (b := 1) (by omega)
  obtain ⟨-, -, -, hbefore, -⟩ := closures_mirror f 0 (b := 1) (by omega)
  obtain ⟨⟨-, hself⟩, -, hentry, -, -, found, hrun, hperm⟩ :=
    closures_mirror f 0 (b := 0) (by omega)
  change (DepthFirst.step g.successors)^[g.outDegree 0 + g.edges.length]
    ⟨[], (g.successors 0).reverse⟩ = _ at hrun
  rw [hsteps, hsuccessors] at hrun
  obtain rfl : [1, 2] = found := congrArg DepthFirst.found (hfound.symm.trans hrun)
  exact ⟨by omega, hsuccessors, hcycle.1 hagain, hbefore.2 (.inr hahead), (hself 0).2 .refl,
    fun h => hnot (hentry.2 h), hrun, hperm⟩

end Flow

end Staged
