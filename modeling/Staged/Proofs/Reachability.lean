import Staged.Proofs.Dependency
import Mathlib.Logic.Relation

/-!
A search finds what can be reached from its stack, and nothing else, and takes nothing off twice. So
the nodes of a dependency graph are the points that can be reached from the entry of its flow, and
the paths of the graph are the paths between these points.
-/

namespace Staged

section

variable {α : Type} [DecidableEq α] {next : α → List α}

lemma mem_search_of_mem_stack {unseen stack : List α} {p : α} (h : p ∈ stack) :
    p ∈ search next unseen stack := by
  fun_induction search next unseen stack with
  | case1 => simp at h
  | case2 unseen q stack ih =>
    rcases List.mem_cons.1 h with rfl | h
    · exact List.mem_cons_self
    · exact List.mem_cons_of_mem q (ih (List.mem_append_right _ h))

lemma mem_search_of_next {unseen stack : List α} {p q : α} (hp : p ∈ search next unseen stack)
    (hq : q ∈ next p) (hunseen : q ∈ unseen) : q ∈ search next unseen stack := by
  fun_induction search next unseen stack with
  | case1 => simp at hp
  | case2 unseen r stack ih =>
    refine List.mem_cons_of_mem r ?_
    by_cases hr : q ∈ next r
    · have hfresh : q ∈ fresh unseen (next r) := mem_fresh.2 ⟨hr, hunseen⟩
      exact mem_search_of_mem_stack (List.mem_append_left _ (List.mem_reverse.2 hfresh))
    · rcases List.mem_cons.1 hp with rfl | hp
      · exact absurd hq hr
      · exact ih hp (mem_without.2 ⟨hunseen, hr⟩)

/-- Where nothing leads out of `U`, a search that may see all of `U` finds what is reached in it. -/
theorem mem_search_of_reaches {unseen stack : List α} {U : α → Prop}
    (closed : ∀ p, U p → ∀ q ∈ next p, U q) (cover : ∀ p, U p → p ∈ unseen ∨ p ∈ stack) {a b : α}
    (hU : U a) (ha : a ∈ stack) (h : Relation.ReflTransGen (fun p q => q ∈ next p) a b) :
    b ∈ search next unseen stack := by
  suffices h' : U b ∧ b ∈ search next unseen stack from h'.2
  induction h with
  | refl => exact ⟨hU, mem_search_of_mem_stack ha⟩
  | @tail p q _ hq ih =>
    have hUq := closed p ih.1 q hq
    refine ⟨hUq, ?_⟩
    rcases cover q hUq with hunseen | hstack
    · exact mem_search_of_next ih.2 hq hunseen
    · exact mem_search_of_mem_stack hstack

/-- Nothing is found that cannot be reached. -/
lemma reaches_of_mem_search {unseen stack : List α} {p : α} (h : p ∈ search next unseen stack) :
    ∃ a ∈ stack, Relation.ReflTransGen (fun p q => q ∈ next p) a p := by
  fun_induction search next unseen stack with
  | case1 => simp at h
  | case2 unseen q stack ih =>
    rcases List.mem_cons.1 h with rfl | h
    · exact ⟨p, List.mem_cons_self, .refl⟩
    · obtain ⟨a, ha, hap⟩ := ih h
      rcases List.mem_append.1 ha with ha | ha
      · have hqa : a ∈ next q := (mem_fresh.1 (List.mem_reverse.1 ha)).1
        exact ⟨q, List.mem_cons_self, .head hqa hap⟩
      · exact ⟨a, List.mem_cons_of_mem q ha, hap⟩

lemma mem_stack_or_unseen_of_mem_search {unseen stack : List α} {p : α}
    (h : p ∈ search next unseen stack) : p ∈ stack ∨ p ∈ unseen := by
  fun_induction search next unseen stack with
  | case1 => simp at h
  | case2 unseen q stack ih =>
    simp only [List.mem_cons, List.mem_append, List.mem_reverse, mem_fresh, mem_without] at h ih ⊢
    grind

/-- Every point is taken off once. -/
lemma nodup_search {unseen stack : List α} (hstack : stack.Nodup)
    (hseen : ∀ p ∈ stack, p ∉ unseen) : (search next unseen stack).Nodup := by
  fun_induction search next unseen stack with
  | case1 => exact List.nodup_nil
  | case2 unseen q stack ih =>
    obtain ⟨hq, hstack⟩ := List.nodup_cons.1 hstack
    obtain ⟨hqseen, hseen⟩ := List.forall_mem_cons.1 hseen
    have hfresh {p : α} (hp : p ∈ (fresh unseen (next q)).reverse) : p ∈ next q ∧ p ∈ unseen :=
      mem_fresh.1 (List.mem_reverse.1 hp)
    refine List.nodup_cons.2 ⟨fun h => ?_, ih ?_ fun p hp => ?_⟩
    · rcases mem_stack_or_unseen_of_mem_search h with h | h
      · rcases List.mem_append.1 h with h | h
        · exact hqseen (hfresh h).2
        · exact hq h
      · exact hqseen (mem_without.1 h).1
    · refine List.nodup_append'.2 ⟨(List.nodup_reverse.2 (nodup_fresh _ _)), hstack, ?_⟩
      exact fun p hp hps => hseen p hps (hfresh hp).2
    · rw [mem_without]
      rcases List.mem_append.1 hp with hp | hp
      · exact fun h => h.2 (hfresh hp).1
      · exact fun h => hseen p hp h.1

end

namespace Digraph

variable {g : Digraph}

lemma mem_closure_of_reaches {next : Nat → List Nat} {starts : List Nat}
    (bounded : ∀ a, ∀ b ∈ next a, b < g.size) {a b : Nat} (ha : a ∈ starts) (hlt : a < g.size)
    (h : Relation.ReflTransGen (fun p q => q ∈ next p) a b) : b ∈ g.closure next starts := by
  have hb : b < g.size := by
    cases h with
    | refl => exact hlt
    | tail _ hb => exact bounded _ b hb
  have hfound : b ∈ search next (g.nodes.filter (· ∉ starts)) starts.eraseDups := by
    refine mem_search_of_reaches (U := (· < g.size)) (fun p _ => bounded p) (fun p hp => ?_) hlt
      (List.mem_eraseDups.2 ha) h
    by_cases hs : p ∈ starts
    · exact .inr (List.mem_eraseDups.2 hs)
    · exact .inl (List.mem_filter.2 ⟨List.mem_range.2 hp, by simpa using hs⟩)
  exact List.mem_filter.2 ⟨List.mem_range.2 hb, by simpa using hfound⟩

lemma reaches_of_mem_closure {next : Nat → List Nat} {starts : List Nat} {b : Nat}
    (h : b ∈ g.closure next starts) :
    ∃ a ∈ starts, Relation.ReflTransGen (fun p q => q ∈ next p) a b := by
  have hfound := of_decide_eq_true (List.mem_filter.1 h).2
  obtain ⟨a, ha, hab⟩ := reaches_of_mem_search hfound
  exact ⟨a, List.mem_eraseDups.1 ha, hab⟩

lemma mem_closure_iff {next : Nat → List Nat} {starts : List Nat}
    (bounded : ∀ a, ∀ b ∈ next a, b < g.size) (hstarts : ∀ a ∈ starts, a < g.size) {b : Nat} :
    b ∈ g.closure next starts ↔
      ∃ a ∈ starts, Relation.ReflTransGen (fun p q => q ∈ next p) a b := by
  refine ⟨reaches_of_mem_closure, ?_⟩
  rintro ⟨a, ha, hab⟩
  exact mem_closure_of_reaches bounded ha (hstarts a ha) hab

lemma successors_lt_size (a : Nat) : ∀ b ∈ g.successors a, b < g.size :=
  fun _ hb => (g.bounded _ (mem_successors.1 hb)).2

lemma predecessors_lt_size (b : Nat) : ∀ a ∈ g.predecessors b, a < g.size :=
  fun _ ha => (g.bounded _ (mem_predecessors.1 ha)).1

theorem mem_precursors_iff {a b : Nat} (hb : b < g.size) :
    a ∈ g.precursors b ↔ Relation.ReflTransGen (fun p q => (p, q) ∈ g.edges) a b := by
  rw [precursors, mem_closure_iff predecessors_lt_size (by simpa using hb)]
  simp only [List.mem_singleton, exists_eq_left, mem_predecessors]
  exact Relation.reflTransGen_swap

theorem mem_reachableAgain_iff {a b : Nat} :
    b ∈ g.reachableAgain a ↔ Relation.TransGen (fun p q => (p, q) ∈ g.edges) a b := by
  rw [reachableAgain, mem_closure_iff successors_lt_size (successors_lt_size a),
    Relation.TransGen.head'_iff]
  simp only [mem_successors]

end Digraph

namespace Flow

variable {P : Type} [DecidableEq P] {f : Flow P}

/-- Control can come from `p` to `q`. -/
def Reaches (f : Flow P) : P → P → Prop := Relation.ReflTransGen fun p q => q ∈ f.successors p

lemma mem_order_of_reaches {p : P} (h : f.Reaches f.entry p) : p ∈ f.order := by
  refine mem_search_of_reaches (U := (· ∈ f.region)) f.closed (fun p hp => ?_) f.entry_mem
    (List.mem_singleton.2 rfl) h
  by_cases he : p = f.entry
  · exact .inr (List.mem_singleton.2 he)
  · exact .inl (List.mem_filter.2 ⟨hp, by simpa using he⟩)

/-- A point that can be reached is a node. -/
lemma exists_node_of_reaches {p : P} (h : f.Reaches f.entry p) :
    f.dependencies.nodes[f.points.idxOf p]? =
      some (f.node f.shape f.points.toArray (f.points.idxOf p) p) := by
  rw [getElem?_nodes_dependencies,
    List.getElem?_idxOf (mem_points_of_mem_order (mem_order_of_reaches h))]
  rfl

lemma mem_shape_edges {p q : P} (hp : f.Reaches f.entry p) (hq : q ∈ f.successors p) :
    (f.points.idxOf p, f.points.idxOf q) ∈ f.shape.edges := by
  simp only [shape, edgesAmong, List.mem_reverse, List.mem_flatMap, List.mem_map]
  exact ⟨p, mem_order_of_reaches hp, q, hq, rfl⟩

lemma mem_precursors_of_reaches {p q : P} (hp : f.Reaches f.entry p) (hpq : f.Reaches p q) :
    f.points.idxOf p ∈ f.shape.precursors (f.points.idxOf q) := by
  refine (Digraph.mem_precursors_iff ?_).2 ?_
  · have hq := mem_order_of_reaches (hp.trans hpq)
    exact List.idxOf_lt_length_of_mem (mem_points_of_mem_order hq)
  · induction hpq with
    | refl => exact .refl
    | tail hpq hstep ih => exact ih.tail (mem_shape_edges (hp.trans hpq) hstep)

/-- A node depends on each point before it that defines what it uses. -/
theorem idxOf_mem_dataDeps {p q : P} {u : Var} (hq : f.Reaches f.entry q) (hqp : f.Reaches q p)
    (hne : q ≠ p) (huse : u ∈ f.uses p) (hdef : u ∈ f.definitions q) :
    f.points.idxOf q ∈
      (f.node f.shape f.points.toArray (f.points.idxOf p) p).dataDeps := by
  have hmem : q ∈ f.points := mem_points_of_mem_order (mem_order_of_reaches hq)
  have hget : f.points[f.points.idxOf q]? = some q := List.getElem?_idxOf hmem
  have hidx : f.points.idxOf q ≠ f.points.idxOf p := fun h => hne ((List.idxOf_inj hmem).1 h)
  have hdepends : f.dependsOn p q := by
    simp only [dependsOn, List.any_eq_true, List.contains_iff_mem]
    exact ⟨u, huse, hdef⟩
  simp only [node, List.mem_filter, bne_iff_ne]
  exact ⟨⟨mem_precursors_of_reaches hq hqp, by simpa [hget] using hdepends⟩, hidx⟩

end Flow

end Staged
