import Staged.Proofs.Dependency.Paths
import Staged.Flow.Table
import Mathlib.Data.List.Induction
import Mathlib.Logic.Function.Iterate

/-!
How the nodes and edges of a dependency graph come about. A walk through the flow takes points from
a stack; each of their successors becomes an edge, and one that has no number yet becomes a node and
is put on the stack. The walk does not look at the region: it ends by itself when every point that
can be reached has been taken off once, and then it has built just the dependency graph.
-/

namespace Staged

/-- What a walk has built, and what it still has to look at. -/
@[ext] structure Walk (P : Type) where
  /-- The points found, by number. -/
  found : List P
  /-- The number that a point was given. -/
  number : P → Option Nat
  /-- The edge added last comes first. -/
  edges : List (Nat × Nat)
  pending : List (P × Nat)

namespace Walk

variable {P : Type} [DecidableEq P]

def start (entry : P) : Walk P where
  found := [entry]
  number p := if p = entry then some 0 else none
  edges := []
  pending := [(entry, 0)]

/-- An edge from node `i` to `q`, which becomes a node if it is none yet. -/
def link (i : Nat) (w : Walk P) (q : P) : Walk P :=
  match w.number q with
  | some j => { w with edges := (i, j) :: w.edges }
  | none =>
    let j := w.found.length
    { found := w.found ++ [q]
      number := fun p => if p = q then some j else w.number p
      edges := (i, j) :: w.edges
      pending := (q, j) :: w.pending }

/-- Takes one point off the stack. -/
def step (next : P → List P) (w : Walk P) : Walk P :=
  match w.pending with
  | [] => w
  | (p, i) :: rest => (next p).foldl (link i) { w with pending := rest }

/-! ### The numbers along a trail -/

/-- The number of a point that lies on `trail`: points are numbered as they first occur. -/
def numberOn (trail : List P) (p : P) : Nat := trail.eraseDups.idxOf p

variable {trail qs stack unseen : List P} {links : List (P × P)} {p q : P} {next : P → List P}

lemma numberOn_append (h : p ∈ trail) : numberOn (trail ++ qs) p = numberOn trail p := by
  rw [numberOn, List.eraseDups_append, List.idxOf_append_of_mem (List.mem_eraseDups.2 h), numberOn]

lemma eraseDups_concat (trail : List P) (q : P) :
    (trail ++ [q]).eraseDups = if q ∈ trail then trail.eraseDups else trail.eraseDups ++ [q] := by
  by_cases hq : q ∈ trail <;>
    simp [List.eraseDups_append, List.removeAll, List.eraseDups_cons, hq]

lemma numberOn_concat (h : q ∉ trail) : numberOn (trail ++ [q]) q = trail.eraseDups.length := by
  rw [numberOn, eraseDups_concat, if_neg h,
    List.idxOf_append_of_notMem (by simpa using h), List.idxOf_cons_self, Nat.add_zero]

/-- The table of numbers, which has points of `trail` only. -/
def number? (trail : List P) (p : P) : Option Nat :=
  if p ∈ trail then some (numberOn trail p) else none

lemma number?_concat_of_mem (hq : q ∈ trail) : number? (trail ++ [q]) = number? trail := by
  funext r
  by_cases hr : r ∈ trail
  · simp [number?, hr, numberOn_append]
  · have hne : r ≠ q := fun h => hr (h ▸ hq)
    simp [number?, hr, hne]

lemma number?_concat_of_not_mem (hq : q ∉ trail) : number? (trail ++ [q]) =
    fun r => if r = q then some trail.eraseDups.length else number? trail r := by
  funext r
  by_cases hr : r = q
  · subst hr
    simp [number?, numberOn_concat hq]
  · by_cases hmem : r ∈ trail <;> simp [number?, hr, hmem, numberOn_append]

/-- The walk that has come across the points of `trail` and followed `links`, the last one first,
and has `stack` still to look at. -/
def along (trail : List P) (links : List (P × P)) (stack : List P) : Walk P where
  found := trail.eraseDups
  number := number? trail
  edges := links.map fun l => (numberOn trail l.1, numberOn trail l.2)
  pending := stack.map fun p => (p, numberOn trail p)

/-- The links and the stack hold points of the trail only. -/
structure Covers (trail : List P) (links : List (P × P)) (stack : List P) : Prop where
  links : ∀ l ∈ links, l.1 ∈ trail ∧ l.2 ∈ trail
  stack : ∀ p ∈ stack, p ∈ trail

lemma Covers.edges_append (hcovers : Covers trail links stack) :
    (links.map fun l => (numberOn (trail ++ qs) l.1, numberOn (trail ++ qs) l.2)) =
      links.map fun l => (numberOn trail l.1, numberOn trail l.2) := by
  refine List.map_congr_left fun l hl => ?_
  obtain ⟨hfrom, hto⟩ := hcovers.links l hl
  rw [numberOn_append hfrom, numberOn_append hto]

lemma Covers.pending_append (hcovers : Covers trail links stack) :
    (stack.map fun p => (p, numberOn (trail ++ qs) p)) =
      stack.map fun p => (p, numberOn trail p) :=
  List.map_congr_left fun p hp => by rw [numberOn_append (hcovers.stack p hp)]

lemma along_start (entry : P) : along [entry] [] [entry] = start entry := by
  ext p
  · simp [along, start, List.eraseDups_cons]
  · by_cases hp : p = entry <;>
      simp [along, start, number?, numberOn, List.eraseDups_cons, hp]
  · rfl
  · simp [along, start, numberOn, List.eraseDups_cons]

/-- A link makes the trail longer, and the numbers that were given stay. -/
lemma link_along (hcovers : Covers trail links stack) (hp : p ∈ trail) :
    (along trail links stack).link (numberOn trail p) q =
      along (trail ++ [q]) ((p, q) :: links) (if q ∈ trail then stack else q :: stack) := by
  by_cases hq : q ∈ trail
  · have hnumber : (along trail links stack).number q = some (numberOn trail q) := if_pos hq
    rw [link, hnumber, if_pos hq]
    ext1
    · simp [along, eraseDups_concat, hq]
    · exact (number?_concat_of_mem hq).symm
    · simp [along, hcovers.edges_append, numberOn_append, hp, hq]
    · exact hcovers.pending_append.symm
  · have hnumber : (along trail links stack).number q = none := if_neg hq
    rw [link, hnumber, if_neg hq]
    ext1
    · simp [along, eraseDups_concat, hq]
    · exact (number?_concat_of_not_mem hq).symm
    · simp [along, hcovers.edges_append, numberOn_append, hp, numberOn_concat hq]
    · simp [along, hcovers.pending_append, numberOn_concat hq]

/-- The points of `qs` that are new after `trail`, each once. -/
def newOn (trail qs : List P) : List P := qs.eraseDups.filter (· ∉ trail)

lemma newOn_concat : newOn trail (qs ++ [q]) =
    newOn trail qs ++ if q ∈ trail ++ qs then [] else [q] := by
  by_cases hq : q ∈ qs <;> by_cases ht : q ∈ trail <;> simp [newOn, eraseDups_concat, hq, ht]

lemma Covers.follow (hcovers : Covers trail links stack) (hp : p ∈ trail) (qs : List P) :
    Covers (trail ++ qs) ((qs.map (p, ·)).reverse ++ links)
      ((newOn trail qs).reverse ++ stack) where
  links l hl := by
    rcases List.mem_append.1 hl with hl | hl
    · obtain ⟨q, hq, rfl⟩ := List.mem_map.1 (List.mem_reverse.1 hl)
      exact ⟨List.mem_append_left qs hp, List.mem_append_right trail hq⟩
    · exact (hcovers.links l hl).imp (List.mem_append_left qs) (List.mem_append_left qs)
  stack r hr := by
    rcases List.mem_append.1 hr with hr | hr
    · have hnew := (List.mem_filter.1 (List.mem_reverse.1 hr)).1
      exact List.mem_append_right trail (List.mem_eraseDups.1 hnew)
    · exact List.mem_append_left qs (hcovers.stack r hr)

lemma foldl_link_along (hcovers : Covers trail links stack) (hp : p ∈ trail) :
    qs.foldl (link (numberOn trail p)) (along trail links stack) =
      along (trail ++ qs) ((qs.map (p, ·)).reverse ++ links) ((newOn trail qs).reverse ++ stack) := by
  induction qs using List.reverseRecOn with
  | nil => simp [newOn]
  | append_singleton qs q ih =>
    have hlink := link_along (q := q) (hcovers.follow hp qs) (List.mem_append_left qs hp)
    rw [numberOn_append hp] at hlink
    rw [List.foldl_append, ih, List.foldl_cons, List.foldl_nil, hlink, newOn_concat]
    by_cases hq : q ∈ trail ++ qs <;> simp [hq]

lemma step_along (hcovers : Covers trail links (p :: stack)) :
    step next (along trail links (p :: stack)) =
      along (trail ++ next p) (((next p).map (p, ·)).reverse ++ links)
        ((newOn trail (next p)).reverse ++ stack) := by
  obtain ⟨hp, hstack⟩ := List.forall_mem_cons.1 hcovers.stack
  exact foldl_link_along ⟨hcovers.links, hstack⟩ hp

/-! ### The whole walk -/

/-- The walk takes off the points that a search takes off, one in each step. -/
lemma iterate_step_along {region : List P} (closed : ∀ p ∈ region, ∀ q ∈ next p, q ∈ region)
    (hunseen : ∀ q ∈ region, q ∈ unseen ↔ q ∉ trail) (hstack : ∀ p ∈ stack, p ∈ region)
    (hcovers : Covers trail links stack) :
    (step next)^[(search next unseen stack).length] (along trail links stack) =
      along (trail ++ (search next unseen stack).flatMap next)
        (((search next unseen stack).flatMap fun p => (next p).map (p, ·)).reverse ++ links) [] := by
  fun_induction search next unseen stack generalizing trail links with
  | case1 => simp
  | case2 unseen p stack ih =>
    obtain ⟨hp, hstack⟩ := List.forall_mem_cons.1 hstack
    have hnext := closed p hp
    have hfresh : fresh unseen (next p) = newOn trail (next p) :=
      List.filter_congr fun q hq => by simp [hunseen q (hnext q (List.mem_eraseDups.1 hq))]
    have hrest : Covers trail links stack :=
      ⟨hcovers.links, fun r hr => hcovers.stack r (List.mem_cons_of_mem p hr)⟩
    have hfollow := hrest.follow (hcovers.stack p List.mem_cons_self) (next p)
    rw [hfresh] at ih ⊢
    rw [List.length_cons, Function.iterate_succ_apply, step_along hcovers,
      ih (fun q hq => ?_) (fun r hr => ?_) hfollow]
    · simp
    · rw [mem_without, hunseen q hq, List.mem_append, not_or]
    · rcases List.mem_append.1 hr with hr | hr
      · have hnew := (List.mem_filter.1 (List.mem_reverse.1 hr)).1
        exact hnext r (List.mem_eraseDups.1 hnew)
      · exact hstack r hr

end Walk

namespace Digraph

/-- Each edge is listed at both of its ends. -/
lemma count_successors (g : Digraph) (a b : Nat) :
    (g.successors a).count b = (g.predecessors b).count a := by
  have hsuccessors : (g.successors a).count b = g.edges.count (a, b) := by
    simp only [successors, List.count, List.countP_map, List.countP_filter]
    refine List.countP_congr fun e _ => ?_
    simp [Prod.ext_iff, and_comm]
  have hpredecessors : (g.predecessors b).count a = g.edges.count (a, b) := by
    simp only [predecessors, List.count, List.countP_map, List.countP_filter]
    refine List.countP_congr fun e _ => ?_
    simp [Prod.ext_iff]
  rw [hsuccessors, hpredecessors]

end Digraph

namespace Flow

variable {P : Type} [DecidableEq P] {f : Flow P} {p : P} {i : Nat}

lemma length_order : f.order.length = f.points.length := by
  have hsame : ∀ p, p ∈ f.order ↔ p ∈ f.points := fun p =>
    ⟨mem_points_of_mem_order, fun h => mem_order_of_reaches (mem_points_iff_reaches.1 h)⟩
  exact ((List.perm_ext_iff_of_nodup nodup_order f.nodup_points).2 hsame).length_eq

lemma indexOf?_eq_some_iff :
    f.dependencies.indexOf? p = some i ↔ f.points[i]? = some p := by
  have hpoint {j : Nat} (hj : j < f.dependencies.nodes.size) (hj' : j < f.points.length) :
      f.dependencies.nodes[j].point = f.points[j] := by
    simp [dependencies, node]
  rw [DependencyGraph.indexOf?, Array.findIdx?_eq_some_iff_getElem, List.getElem?_eq_some_iff]
  constructor
  · rintro ⟨hi, hp, -⟩
    have hi' : i < f.points.length := f.size_dependencies ▸ hi
    exact ⟨hi', by rw [← hpoint hi hi']; simpa using hp⟩
  · rintro ⟨hi', hp⟩
    have hi : i < f.dependencies.nodes.size := Nat.lt_of_lt_of_eq hi' f.size_dependencies.symm
    refine ⟨hi, by rw [hpoint hi hi']; simpa using hp, fun j hj => ?_⟩
    have hj' : j < f.points.length := Nat.lt_trans hj hi'
    have hne := List.pairwise_iff_getElem.1 f.nodup_points j i hj' hi' hj
    rw [hpoint (Nat.lt_trans hj hi) hj']
    simpa [hp] using hne

lemma getElem?_points_zero : f.points[0]? = some f.entry := by
  simp [points, List.eraseDups_cons]

lemma isSome_indexOf?_iff : (f.dependencies.indexOf? p).isSome ↔ f.Reaches f.entry p := by
  rw [← mem_points_iff_reaches, List.mem_iff_getElem?, Option.isSome_iff_exists]
  simp only [indexOf?_eq_some_iff]

lemma indexOf?_eq_ite :
    f.dependencies.indexOf? p = if p ∈ f.points then some (f.points.idxOf p) else none := by
  split
  · next hp => exact indexOf?_eq_some_iff.2 (List.getElem?_idxOf hp)
  · next hp =>
    refine Option.eq_none_iff_forall_ne_some.2 fun i hi => hp ?_
    exact List.mem_of_getElem? (indexOf?_eq_some_iff.1 hi)

/-- The walk ends with the dependency graph. -/
lemma walk_eq_dependencies (f : Flow P) :
    (Walk.step f.successors)^[f.dependencies.size] (Walk.start f.entry) =
      ⟨f.dependencies.nodes.toList.map Node.point, f.dependencies.indexOf?,
        f.dependencies.shape.edges, []⟩ := by
  have hcovers : Walk.Covers [f.entry] [] [f.entry] := ⟨by simp, by simp⟩
  have hunseen : ∀ q ∈ f.region, q ∈ f.region.filter (· ≠ f.entry) ↔ q ∉ [f.entry] := by
    simp +contextual
  have hwalk := Walk.iterate_step_along f.closed hunseen (by simpa using f.entry_mem) hcovers
  rw [Walk.along_start, List.append_nil] at hwalk
  change (Walk.step f.successors)^[f.order.length] _ =
    Walk.along (f.entry :: f.order.flatMap f.successors)
      (f.order.flatMap fun p => (f.successors p).map (p, ·)).reverse [] at hwalk
  rw [size_dependencies, ← length_order, hwalk, map_point_dependencies]
  ext1
  · rfl
  · funext p
    have hfound : p ∈ f.entry :: f.order.flatMap f.successors ↔ p ∈ f.points :=
      List.mem_eraseDups.symm
    simp only [indexOf?_eq_ite, Walk.along, Walk.number?, hfound]
    rfl
  · have hedges : f.shape.edges = (edgesAmong f.successors f.points f.order).reverse := rfl
    change _ = f.shape.edges
    rw [hedges]
    simp only [Walk.along, edgesAmong, List.map_reverse, List.map_flatMap, List.map_map]
    rfl
  · rfl

/-- **The dependency graph is the reachable part of the flow.** The walk with a stack and a table of
numbers ends with it, when it has taken off each node once. Its nodes are the points that can be
reached from the entry, each exactly once, and the entry is the first; the index of a point is the
number of the node that holds it, and only points that can be reached have one. The successors of a
node, the last one first, are the nodes of the points that the flow lists, with every repetition,
and each edge is seen as often from its end as from its beginning. -/
theorem dependencies_span_reachable (f : Flow P) :
    let g := f.dependencies
    let points := g.nodes.toList.map Node.point
    (Walk.step f.successors)^[g.size] (Walk.start f.entry) =
      ⟨points, g.indexOf?, g.shape.edges, []⟩ ∧
    (∀ p, p ∈ points ↔ f.Reaches f.entry p) ∧ points.Nodup ∧
    g.indexOf? f.entry = some 0 ∧
    (∀ p, (g.indexOf? p).isSome ↔ f.Reaches f.entry p) ∧
    (∀ p i, g.indexOf? p = some i ↔ points[i]? = some p) ∧
    (∀ i p, points[i]? = some p →
      (g.shape.successors i).reverse.map (points[·]?) = (f.successors p).map some) ∧
    ∀ a b, (g.shape.successors a).count b = (g.shape.predecessors b).count a := by
  intro g points
  have hpoints : points = f.points := f.map_point_dependencies
  refine ⟨walk_eq_dependencies f, fun p => ?_, f.nodup_map_point, ?_, fun p => isSome_indexOf?_iff,
    fun p i => ?_, fun i p hp => ?_, Digraph.count_successors g.shape⟩
  · rw [hpoints, mem_points_iff_reaches]
  · rw [indexOf?_eq_some_iff, getElem?_points_zero]
  · rw [hpoints, indexOf?_eq_some_iff]
  · rw [hpoints] at hp ⊢
    obtain ⟨hi, rfl⟩ := List.getElem?_eq_some_iff.1 hp
    have hreach : f.Reaches f.entry f.points[i] :=
      mem_points_iff_reaches.1 (List.getElem_mem hi)
    have hsuccessors := successors_idxOf hreach
    rw [f.nodup_points.idxOf_getElem i hi] at hsuccessors
    change ((f.shape.successors i).reverse.map _) = _
    rw [hsuccessors, List.reverse_reverse, List.map_map]
    exact List.map_congr_left fun q hq => getElem?_idxOf (hreach.tail hq)

/-- Point 2 is found before point 1 and loops to itself; both lead to point 3, which leads back to
the entry, and the entry leads to point 2 twice. Point 4 leads to the entry and is not reached. -/
theorem dependencies_span_reachable_diamond :
    let f := ofRows #[⟨[], [], [2, 1, 2]⟩, ⟨[], [], [3]⟩, ⟨[], [], [3, 2]⟩, ⟨[], [], [0]⟩,
      ⟨[], [], [0]⟩] .always 0
    let g := f.dependencies
    let points := g.nodes.toList.map Node.point
    points[1]? = some 2 ∧ (g.shape.successors 1).reverse.map (points[·]?) = [some 3, some 2] ∧
      (g.shape.predecessors 1).count 0 = 2 ∧ ¬ f.Reaches 0 4 := by
  intro f g points
  obtain ⟨-, -, -, -, hindex, -, hsuccessors, hcount⟩ := dependencies_span_reachable f
  have hpoint : points[1]? = some 2 := by decide +kernel
  have hentry : (g.shape.successors 0).count 1 = 2 := by decide +kernel
  have hnone : g.indexOf? 4 = none := by decide +kernel
  refine ⟨hpoint, hsuccessors 1 2 hpoint, ?_, fun h => ?_⟩
  · rw [← hcount, hentry]
  · have hsome := (hindex 4).2 h
    rw [hnone] at hsome
    exact Bool.noConfusion hsome

end Flow

end Staged
