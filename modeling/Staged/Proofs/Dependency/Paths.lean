import Staged.Proofs.Reachability

/-!
The dependencies of a point, told by the paths of the flow alone: without numbers of nodes, and in
no order. The nodes of a dependency graph hold exactly these.
-/

namespace Staged.Flow

variable {P : Type} {f : Flow P} {p q r : P}

/-- Control can come from `p` to `q` in at least one step. -/
def Ahead (f : Flow P) : P → P → Prop := Relation.TransGen fun p q => q ∈ f.successors p

lemma Reaches.ahead (hp : f.Reaches f.entry p) (h : f.Ahead p q) : f.Reaches f.entry q :=
  hp.trans h.to_reflTransGen

/-- A definition that `p` uses comes round again: it lies before `p` and ahead of it. -/
def Carried (f : Flow P) (p : P) : Prop :=
  ∃ q, f.Reaches q p ∧ f.Ahead p q ∧ f.dependsOn p q

/-- Such a point lies on a round itself. -/
lemma Carried.ahead_self (h : f.Carried p) : f.Ahead p p := by
  obtain ⟨q, hqp, hpq, -⟩ := h
  exact hpq.trans_left hqp

/-- At `r` there is a choice that may end a round through `p`. -/
def MayEnd (f : Flow P) (p r : P) : Prop :=
  f.Reaches r p ∧ f.Ahead p r ∧ 1 < (f.successors r).length

variable [DecidableEq P]

/-- The node that holds a point. -/
def nodeAt (f : Flow P) (p : P) : Node P :=
  f.node f.shape f.points.toArray (f.points.idxOf p) p

/-! ### Points and their numbers -/

lemma mem_points_iff_reaches : p ∈ f.points ↔ f.Reaches f.entry p := by
  refine ⟨fun h => ?_, fun h => mem_points_of_mem_order (mem_order_of_reaches h)⟩
  have horder {q : P} (hq : q ∈ f.order) : f.Reaches f.entry q := by
    obtain ⟨a, ha, haq⟩ := reaches_of_mem_search hq
    exact List.mem_singleton.1 ha ▸ haq
  rcases mem_points.1 h with rfl | ⟨q, hq, hp⟩
  · exact .refl
  · exact (horder hq).tail hp

lemma idxOf_inj (hp : f.Reaches f.entry p) :
    f.points.idxOf p = f.points.idxOf q ↔ p = q :=
  List.idxOf_inj (mem_points_iff_reaches.2 hp)

lemma idxOf_lt_size (hp : f.Reaches f.entry p) : f.points.idxOf p < f.shape.size :=
  List.idxOf_lt_length_of_mem (mem_points_iff_reaches.2 hp)

lemma exists_point_of_lt {i : Nat} (hi : i < f.shape.size) :
    ∃ p, f.Reaches f.entry p ∧ f.points.idxOf p = i := by
  have hi : i < f.points.length := hi
  refine ⟨f.points[i], mem_points_iff_reaches.1 (List.getElem_mem hi), ?_⟩
  exact f.nodup_points.idxOf_getElem i hi

lemma getElem?_idxOf (hp : f.Reaches f.entry p) : f.points[f.points.idxOf p]? = some p :=
  List.getElem?_idxOf (mem_points_iff_reaches.2 hp)

lemma getElem?_nodes_idxOf (hp : f.Reaches f.entry p) :
    f.dependencies.nodes[f.points.idxOf p]? = some (f.nodeAt p) :=
  exists_node_of_reaches hp

lemma mem_nodes_iff {n : Node P} :
    n ∈ f.dependencies.nodes ↔ ∃ p, f.Reaches f.entry p ∧ n = f.nodeAt p := by
  constructor
  · intro hn
    obtain ⟨i, hi⟩ := Array.getElem?_of_mem hn
    have hlt : i < f.dependencies.size := (Array.getElem?_eq_some_iff.1 hi).1
    rw [size_dependencies] at hlt
    obtain ⟨p, hp, rfl⟩ := exists_point_of_lt hlt
    exact ⟨p, hp, Option.some.inj (hi.symm.trans (getElem?_nodes_idxOf hp))⟩
  · rintro ⟨p, hp, rfl⟩
    exact Array.mem_of_getElem? (getElem?_nodes_idxOf hp)

/-! ### Paths -/

lemma exists_step_of_mem_edges {i j : Nat} (h : (i, j) ∈ f.shape.edges) :
    ∃ p q, f.Reaches f.entry p ∧ q ∈ f.successors p ∧
      i = f.points.idxOf p ∧ j = f.points.idxOf q := by
  simp only [shape, edgesAmong, List.mem_reverse, List.mem_flatMap, List.mem_map,
    Prod.mk.injEq] at h
  obtain ⟨p, hp, q, hq, rfl, rfl⟩ := h
  exact ⟨p, q, mem_points_iff_reaches.1 (mem_points_of_mem_order hp), hq, rfl, rfl⟩

lemma mem_edges_idxOf_iff (hp : f.Reaches f.entry p) {j : Nat} :
    (f.points.idxOf p, j) ∈ f.shape.edges ↔ ∃ q ∈ f.successors p, j = f.points.idxOf q := by
  constructor
  · intro h
    obtain ⟨p', q, hp', hq, hpp', rfl⟩ := exists_step_of_mem_edges h
    obtain rfl := (idxOf_inj hp).1 hpp'
    exact ⟨q, hq, rfl⟩
  · rintro ⟨q, hq, rfl⟩
    exact mem_shape_edges hp hq

lemma reaches_of_reflTransGen_edges (hp : f.Reaches f.entry p) {j : Nat}
    (h : Relation.ReflTransGen (fun i j => (i, j) ∈ f.shape.edges) (f.points.idxOf p) j) :
    ∃ q, f.Reaches p q ∧ j = f.points.idxOf q := by
  induction h with
  | refl => exact ⟨p, .refl, rfl⟩
  | tail _ hedge ih =>
    obtain ⟨q, hpq, rfl⟩ := ih
    obtain ⟨r, hr, rfl⟩ := (mem_edges_idxOf_iff (hp.trans hpq)).1 hedge
    exact ⟨r, hpq.tail hr, rfl⟩

lemma mem_precursors_idxOf_iff (hp : f.Reaches f.entry p) (hq : f.Reaches f.entry q) :
    f.points.idxOf q ∈ f.shape.precursors (f.points.idxOf p) ↔ f.Reaches q p := by
  refine ⟨fun h => ?_, mem_precursors_of_reaches hq⟩
  obtain ⟨r, hqr, hr⟩ :=
    reaches_of_reflTransGen_edges hq ((Digraph.mem_precursors_iff (idxOf_lt_size hp)).1 h)
  exact (idxOf_inj hp).1 hr ▸ hqr

lemma mem_reachableAgain_idxOf_iff (hp : f.Reaches f.entry p) (hq : f.Reaches f.entry q) :
    f.points.idxOf q ∈ f.shape.reachableAgain (f.points.idxOf p) ↔ f.Ahead p q := by
  rw [Digraph.mem_reachableAgain_iff]
  constructor
  · intro h
    obtain ⟨i, hi, hiq⟩ := Relation.TransGen.head'_iff.1 h
    obtain ⟨r, hr, rfl⟩ := (mem_edges_idxOf_iff hp).1 hi
    obtain ⟨q', hrq, hq'⟩ := reaches_of_reflTransGen_edges (hp.tail hr) hiq
    obtain rfl := (idxOf_inj hq).1 hq'
    exact .head' hr hrq
  · intro h
    induction h with
    | single hr => exact .single (mem_shape_edges hp hr)
    | tail hpr hr ih =>
      have hreach := hp.ahead hpr
      exact (ih hreach).tail (mem_shape_edges hreach hr)

/-- The successors of a point are looked up once. -/
lemma nodup_order : f.order.Nodup := nodup_search (List.nodup_singleton _) (by simp)

lemma flatMap_eq_of_nodup {α β : Type} {l : List α} {g : α → List β} {a : α} (hnodup : l.Nodup)
    (ha : a ∈ l) (hother : ∀ b ∈ l, b ≠ a → g b = []) : l.flatMap g = g a := by
  obtain ⟨before, after, rfl⟩ := List.append_of_mem ha
  obtain ⟨-, hafter, hdisjoint⟩ := List.nodup_append'.1 hnodup
  have hbefore : before.flatMap g = [] := List.flatMap_eq_nil_iff.2 fun b hb =>
    hother b (List.mem_append_left _ hb) fun h => hdisjoint hb (h ▸ List.mem_cons_self)
  have hrest : after.flatMap g = [] := List.flatMap_eq_nil_iff.2 fun b hb =>
    hother b (List.mem_append_right _ (List.mem_cons_of_mem a hb)) fun h =>
      (List.nodup_cons.1 hafter).1 (h ▸ hb)
  rw [List.flatMap_append, List.flatMap_cons, hbefore, hrest, List.nil_append, List.append_nil]

/-- The successors of a node are those of its point, with every repetition, the last one first. -/
lemma successors_idxOf (hp : f.Reaches f.entry p) :
    f.shape.successors (f.points.idxOf p) = ((f.successors p).map f.points.idxOf).reverse := by
  let edgesOf (q : P) : List (Nat × Nat) :=
    (f.successors q).map fun r => (f.points.idxOf q, f.points.idxOf r)
  have hother (q : P) (hq : q ∈ f.order) (hne : q ≠ p) :
      (edgesOf q).filter (·.1 == f.points.idxOf p) = [] := by
    have hreach : f.Reaches f.entry q := mem_points_iff_reaches.1 (mem_points_of_mem_order hq)
    have hidx : f.points.idxOf q ≠ f.points.idxOf p := fun h => hne ((idxOf_inj hreach).1 h)
    simp [edgesOf, hidx]
  have hown : (edgesOf p).filter (·.1 == f.points.idxOf p) = edgesOf p := by
    simp [edgesOf, List.filter_eq_self]
  have hedges : (f.order.flatMap edgesOf).filter (·.1 == f.points.idxOf p) = edgesOf p := by
    rw [List.filter_flatMap,
      flatMap_eq_of_nodup nodup_order (mem_order_of_reaches hp) hother, hown]
  simp only [Digraph.successors, shape, edgesAmong, List.filter_reverse, List.map_reverse]
  change (((f.order.flatMap edgesOf).filter _).map _).reverse = _
  rw [hedges]
  simp [edgesOf, Function.comp_def]

/-- Parallel edges count: a point has as many edges as it lists successors. -/
lemma outDegree_idxOf (hp : f.Reaches f.entry p) :
    f.shape.outDegree (f.points.idxOf p) = (f.successors p).length := by
  rw [Digraph.outDegree, successors_idxOf hp, List.length_reverse, List.length_map]

/-! ### Nodes -/

@[simp] lemma point_nodeAt : (f.nodeAt p).point = p := rfl

lemma any_dependsOn_idxOf (hq : f.Reaches f.entry q) :
    f.points.toArray[f.points.idxOf q]?.any (f.dependsOn p) = f.dependsOn p q := by
  rw [List.getElem?_toArray, getElem?_idxOf hq, Option.any_some]

lemma mem_dataDeps_idxOf_iff (hp : f.Reaches f.entry p) (hq : f.Reaches f.entry q) :
    f.points.idxOf q ∈ (f.nodeAt p).dataDeps ↔ f.Reaches q p ∧ q ≠ p ∧ f.dependsOn p q := by
  simp only [nodeAt, node, List.mem_filter, bne_iff_ne, ne_eq, mem_precursors_idxOf_iff hp hq,
    any_dependsOn_idxOf hq, idxOf_inj hq]
  tauto

/-- The dependencies of a node are nodes of points. -/
lemma exists_point_of_mem_dataDeps (hp : f.Reaches f.entry p) {i : Nat}
    (hi : i ∈ (f.nodeAt p).dataDeps) : ∃ q, f.Reaches f.entry q ∧ f.points.idxOf q = i := by
  refine exists_point_of_lt ?_
  have hlt := lt_size_of_mem_dataDeps (mem_nodes_iff.2 ⟨p, hp, rfl⟩) hi
  rwa [size_dependencies] at hlt

lemma exists_point_of_mem_loopDeps (hp : f.Reaches f.entry p) {i : Nat}
    (hi : .branch i ∈ (f.nodeAt p).loopDeps) :
    ∃ r, f.Reaches f.entry r ∧ f.points.idxOf r = i := by
  refine exists_point_of_lt ?_
  have hlt := lt_size_of_branch_mem_loopDeps (mem_nodes_iff.2 ⟨p, hp, rfl⟩) hi
  rwa [size_dependencies] at hlt

/-- The numbers of the points that `p` depends on, its own among them if it uses what it defines. -/
def sourcesAt (f : Flow P) (p : P) : List Nat :=
  (f.shape.precursors (f.points.idxOf p)).filter fun q => f.points.toArray[q]?.any (f.dependsOn p)

/-- The numbers of the points with a choice that may end a round through `p`. -/
def guardsAt (f : Flow P) (p : P) : List Nat :=
  (f.shape.precursors (f.points.idxOf p)).filter fun r =>
    1 < f.shape.outDegree r && (f.shape.reachableAgain (f.points.idxOf p)).contains r

lemma any_sourcesAt_iff_carried (hp : f.Reaches f.entry p) :
    (f.sourcesAt p).any (f.shape.reachableAgain (f.points.idxOf p)).contains ↔ f.Carried p := by
  simp only [sourcesAt, List.any_eq_true, List.mem_filter, List.contains_iff_mem]
  constructor
  · rintro ⟨i, ⟨hbefore, hdepends⟩, hahead⟩
    obtain ⟨q, hq, rfl⟩ := exists_point_of_lt (Digraph.lt_size_of_mem_closure hbefore)
    rw [any_dependsOn_idxOf hq] at hdepends
    exact ⟨q, (mem_precursors_idxOf_iff hp hq).1 hbefore,
      (mem_reachableAgain_idxOf_iff hp hq).1 hahead, hdepends⟩
  · rintro ⟨q, hbefore, hahead, hdepends⟩
    have hq : f.Reaches f.entry q := hp.ahead hahead
    refine ⟨f.points.idxOf q, ⟨(mem_precursors_idxOf_iff hp hq).2 hbefore, ?_⟩,
      (mem_reachableAgain_idxOf_iff hp hq).2 hahead⟩
    rwa [any_dependsOn_idxOf hq]

lemma idxOf_mem_guardsAt_iff (hp : f.Reaches f.entry p) (hr : f.Reaches f.entry r) :
    f.points.idxOf r ∈ f.guardsAt p ↔ f.MayEnd p r := by
  simp only [guardsAt, List.mem_filter, mem_precursors_idxOf_iff hp hr, outDegree_idxOf hr,
    Bool.and_eq_true, decide_eq_true_eq, List.contains_iff_mem, mem_reachableAgain_idxOf_iff hp hr,
    MayEnd]
  tauto

lemma guardsAt_eq_nil_iff (hp : f.Reaches f.entry p) :
    f.guardsAt p = [] ↔ ∀ r, ¬ f.MayEnd p r := by
  rw [List.eq_nil_iff_forall_not_mem]
  constructor
  · intro h r hr
    exact h _ ((idxOf_mem_guardsAt_iff hp (hp.ahead hr.2.1)).2 hr)
  · intro h i hi
    have hlt := Digraph.lt_size_of_mem_closure (List.mem_filter.1 hi).1
    obtain ⟨r, hr, rfl⟩ := exists_point_of_lt hlt
    exact h r ((idxOf_mem_guardsAt_iff hp hr).1 hi)

lemma loopDeps_nodeAt : (f.nodeAt p).loopDeps =
    if (f.sourcesAt p).any (f.shape.reachableAgain (f.points.idxOf p)).contains then
      if (f.guardsAt p).isEmpty then [.unbounded] else (f.guardsAt p).map .branch
    else [] := rfl

lemma branch_mem_loopDeps_iff (hp : f.Reaches f.entry p) (hr : f.Reaches f.entry r) :
    .branch (f.points.idxOf r) ∈ (f.nodeAt p).loopDeps ↔ f.Carried p ∧ f.MayEnd p r := by
  rw [loopDeps_nodeAt, ← any_sourcesAt_iff_carried hp, ← idxOf_mem_guardsAt_iff hp hr]
  cases hguards : f.guardsAt p <;> split <;> simp_all

lemma unbounded_mem_loopDeps_iff (hp : f.Reaches f.entry p) :
    .unbounded ∈ (f.nodeAt p).loopDeps ↔ f.Carried p ∧ ∀ r, ¬ f.MayEnd p r := by
  rw [loopDeps_nodeAt, ← any_sourcesAt_iff_carried hp, ← guardsAt_eq_nil_iff hp]
  cases hguards : f.guardsAt p <;> split <;> simp_all

end Staged.Flow
