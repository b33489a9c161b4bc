import Staged.Proofs.Graph.Descent

/-!
How a draft is built. It changes in four ways only: a point is added whose handles lead to points
that are there, a placeholder is made, an entry is noted for a label, and the true side of a branch
that was added on the way is aimed at a point that is there. So all handles stay within the graph,
also when they are settled, and the points that were there before are left alone.
-/

namespace Staged

namespace FlowGraph

/-- All handles of a graph lead to points of the graph. -/
def Closed (g : FlowGraph) : Prop := ∀ p, ∀ q ∈ g.successors p, q < g.size

lemma closed_iff {g : FlowGraph} : g.Closed ↔
    ∀ p point, g.get? p = some point → ∀ q ∈ point.successors, q < g.size := by
  refine forall_congr' fun p => ?_
  rcases hp : g.get? p with _ | point <;> simp [successors, hp]

lemma closed_exit : exit.Closed := by
  intro p q hq
  rcases p with _ | p <;> simp [exit, successors, get?, Point.successors] at hq

end FlowGraph

namespace Point

/-- What a point does, wherever it leads. -/
def form (point : Point) : Point := point.redirect fun _ => 0

@[simp] lemma form_redirect (f : PointId → PointId) (point : Point) :
    (point.redirect f).form = point.form := by
  cases point <;> rfl

lemma redirect_eq_self {point : Point} {f : PointId → PointId}
    (h : ∀ q ∈ point.successors, f q = q) : point.redirect f = point := by
  cases point <;> simp_all [redirect, successors]

end Point

namespace Stmt

mutual

/-- The forms of the points that a statement may be compiled to, placeholders of labels included. -/
def points : Stmt → List Point
  | .expr e => [.evaluate e 0]
  | .assign targets values define none => [.assign targets values define 0]
  | .assign [target] [value] _ (some op) => [compound target op value 0]
  | .assign targets values define (some op) =>
    [.unsupported (.assign targets values define (some op))]
  | .count target up => [compound target (if up then .add else .sub) (.lit ⟨.int, "1"⟩) 0]
  | .block body => pointsAll body
  | .ifElse init test body otherwise =>
    .branch (some test) 0 0 :: (pointsOption init ++ points body ++ pointsOption otherwise)
  | .loop init test post body =>
    .branch test 0 0 :: (pointsOption init ++ pointsOption post ++ points body)
  | .jump kind label => [.unsupported (.jump kind label)]
  | .ret results => [.ret results]
  | .labeled _ body => points body
  | .other kind => [.unsupported (.other kind)]
  | .empty => []

def pointsOption : Option Stmt → List Point
  | none => []
  | some s => points s

def pointsAll : List Stmt → List Point
  | [] => []
  | s :: rest => points s ++ pointsAll rest

end

lemma pointsOption_eq (s? : Option Stmt) : pointsOption s? = points (s?.getD .empty) := by
  cases s? <;> simp [pointsOption, points]

end Stmt

namespace Draft

/-- The draft `d'` is built from `d` with points whose forms are among `ps`. -/
inductive Builds (ps : List Point) (d : Draft) : Draft → Prop where
  | refl : Builds ps d d
  | add {d'} (h : Builds ps d d') (point : Point) (hform : point.form ∈ ps)
      (hhandles : ∀ q ∈ point.successors, q < d'.graph.size) : Builds ps d (d'.add point).2
  | slot {d' label} (h : Builds ps d d') (hform : .unsupported (.jump .goTo (some label)) ∈ ps) :
      Builds ps d (d'.slot label).2
  | enter {d' entry} (h : Builds ps d d') (label : String) (hentry : entry < d'.graph.size) :
      Builds ps d (d'.enter label entry)
  | aimTrue {d' p target} (h : Builds ps d d') (hp : d.graph.size ≤ p)
      (htarget : target < d'.graph.size) : Builds ps d (d'.aimTrue p target)

/-- All handles, in the points and in the tables, lead to points of the graph. -/
structure Sound (d : Draft) : Prop where
  closed : d.graph.Closed
  slots_lt : ∀ label p, (label, p) ∈ d.slots → p < d.graph.size
  entries_lt : ∀ label p, (label, p) ∈ d.entries → p < d.graph.size

variable {ps : List Point} {d d' d'' : Draft} {p q : PointId} {label : String}

lemma slot_eq_or (d : Draft) (label : String) :
    (∃ p, (label, p) ∈ d.slots ∧ d.slot label = (p, d)) ∨
      ∃ point, point = .unsupported (.jump .goTo (some label)) ∧
        d.slot label = (d.graph.size,
          { (d.add point).2 with slots := (label, d.graph.size) :: d.slots }) := by
  rcases hp : d.slots.lookup label with _ | p
  · exact .inr ⟨_, rfl, by simp [slot, hp, add]⟩
  · exact .inl ⟨p, mem_of_lookup_eq_some hp, by simp [slot, hp]⟩

namespace Builds

lemma size_le (h : d.Builds ps d') : d.graph.size ≤ d'.graph.size := by
  induction h with
  | refl => exact Nat.le_refl _
  | add _ _ _ _ ih =>
    rw [size_graph_add]
    exact Nat.le_succ_of_le ih
  | @slot d' label _ _ ih =>
    rcases d'.slot_eq_or label with ⟨p, -, heq⟩ | ⟨point, -, heq⟩
    · rw [heq]
      exact ih
    · rw [heq]
      simpa using Nat.le_succ_of_le ih
  | enter _ _ _ ih => exact ih
  | aimTrue _ _ _ ih =>
    rw [size_graph_aimTrue]
    exact ih

lemma trans (h : d.Builds ps d') (h' : d'.Builds ps d'') : d.Builds ps d'' := by
  induction h' with
  | refl => exact h
  | add _ point hform hhandles ih => exact ih.add point hform hhandles
  | slot _ hform ih => exact ih.slot hform
  | enter _ label hentry ih => exact ih.enter label hentry
  | aimTrue _ hp htarget ih => exact ih.aimTrue (Nat.le_trans h.size_le hp) htarget

/-- The points that were there stay as they are. -/
lemma get?_eq (h : d.Builds ps d') (hp : p < d.graph.size) :
    d'.graph.get? p = d.graph.get? p := by
  induction h with
  | refl => rfl
  | @add d' h point _ _ ih =>
    rw [(grows_add d' point).get?_eq p (Nat.lt_of_lt_of_le hp h.size_le), ih]
  | @slot d' label h _ ih =>
    rcases d'.slot_eq_or label with ⟨_, -, heq⟩ | ⟨point, -, heq⟩
    · rw [heq, ih]
    · rw [heq, ← ih]
      exact (grows_add d' point).get?_eq p (Nat.lt_of_lt_of_le hp h.size_le)
  | enter _ _ _ ih => exact ih
  | @aimTrue d' q target _ hq _ ih =>
    rw [get?_aimTrue_of_ne d' target (Nat.ne_of_gt (Nat.lt_of_lt_of_le hp hq)), ih]

/-- The new points have the forms that the draft is built with. -/
lemma form_mem (h : d.Builds ps d') (hp : d.graph.size ≤ p) {point : Point}
    (hpoint : d'.graph.get? p = some point) : point.form ∈ ps := by
  induction h generalizing point with
  | refl => simp [FlowGraph.get?_eq_none_iff.2 hp] at hpoint
  | add _ _ hform _ ih =>
    rw [Draft.add, FlowGraph.get?_push] at hpoint
    split at hpoint
    · exact Option.some.inj hpoint ▸ hform
    · exact ih hpoint
  | @slot d' label _ hform ih =>
    rcases d'.slot_eq_or label with ⟨_, -, heq⟩ | ⟨point', rfl, heq⟩ <;> rw [heq] at hpoint
    · exact ih hpoint
    · simp only [Draft.add, FlowGraph.get?_push] at hpoint
      split at hpoint
      · exact Option.some.inj hpoint ▸ hform
      · exact ih hpoint
  | enter _ _ _ ih => exact ih hpoint
  | @aimTrue d' q target _ _ _ ih =>
    by_cases hpq : q = p
    · subst hpq
      rw [Draft.aimTrue, FlowGraph.get?, Array.getElem?_modify, if_pos rfl,
        Option.map_eq_some_iff] at hpoint
      obtain ⟨point', hpoint, rfl⟩ := hpoint
      have hform : point'.form ∈ ps := ih hpoint
      cases point' <;> exact hform
    · rw [get?_aimTrue_of_ne d' target hpq] at hpoint
      exact ih hpoint

/-- A placeholder that is made on the way is a new point. -/
lemma mem_slots (h : d.Builds ps d') (hp : (label, p) ∈ d'.slots) :
    (label, p) ∈ d.slots ∨ d.graph.size ≤ p := by
  induction h with
  | refl => exact .inl hp
  | add _ _ _ _ ih | enter _ _ _ ih | aimTrue _ _ _ ih => exact ih hp
  | @slot d' label' h _ ih =>
    rcases d'.slot_eq_or label' with ⟨_, -, heq⟩ | ⟨point, -, heq⟩ <;> rw [heq] at hp
    · exact ih hp
    · rcases List.mem_cons.1 hp with hp | hp
      · exact .inr ((Prod.mk.inj hp).2 ▸ h.size_le)
      · exact ih hp

end Builds

namespace Sound

lemma of_graph (g : FlowGraph) (hg : g.Closed) : Sound { graph := g } := ⟨hg, by simp, by simp⟩

lemma lt_of_get? {point : Point} (h : d.Sound) (hp : d.graph.get? p = some point)
    (hq : q ∈ point.successors) : q < d.graph.size :=
  FlowGraph.closed_iff.1 h.closed p point hp q hq

lemma add (h : d.Sound) (point : Point) (hhandles : ∀ q ∈ point.successors, q < d.graph.size) :
    (d.add point).2.Sound where
  closed := FlowGraph.closed_iff.2 fun p point' hp q hq => by
    rw [Draft.add, FlowGraph.get?_push] at hp
    rw [size_graph_add]
    split at hp
    · exact Nat.lt_succ_of_lt (hhandles q (Option.some.inj hp ▸ hq))
    · exact Nat.lt_succ_of_lt (h.lt_of_get? hp hq)
  slots_lt label p hp := by simpa using Nat.lt_succ_of_lt (h.slots_lt label p hp)
  entries_lt label p hp := by simpa using Nat.lt_succ_of_lt (h.entries_lt label p hp)

lemma slot (h : d.Sound) (label : String) : (d.slot label).2.Sound := by
  rcases d.slot_eq_or label with ⟨_, -, heq⟩ | ⟨point, rfl, heq⟩
  · exact heq ▸ h
  · have hadd := h.add (.unsupported (.jump .goTo (some label))) (by simp [Point.successors])
    rw [heq]
    refine ⟨hadd.closed, fun l p hp => ?_, hadd.entries_lt⟩
    rcases List.mem_cons.1 hp with hp | hp
    · obtain ⟨rfl, rfl⟩ := Prod.mk.inj hp
      simp [Draft.add]
    · exact hadd.slots_lt l p hp

lemma enter {entry : PointId} (h : d.Sound) (label : String) (hentry : entry < d.graph.size) :
    (d.enter label entry).Sound where
  closed := h.closed
  slots_lt := h.slots_lt
  entries_lt l p hp := by
    rcases List.mem_cons.1 hp with hp | hp
    · exact (Prod.mk.inj hp).2 ▸ hentry
    · exact h.entries_lt l p hp

lemma aimTrue {target : PointId} (h : d.Sound) (p : PointId) (htarget : target < d.graph.size) :
    (d.aimTrue p target).Sound where
  closed := FlowGraph.closed_iff.2 fun q point hq r hr => by
    rw [size_graph_aimTrue]
    by_cases hpq : p = q
    · subst hpq
      rw [Draft.aimTrue, FlowGraph.get?, Array.getElem?_modify, if_pos rfl,
        Option.map_eq_some_iff] at hq
      obtain ⟨point', hpoint, rfl⟩ := hq
      have hold {r : PointId} := h.lt_of_get? (q := r) hpoint
      cases point' with
      | branch test ifTrue ifFalse =>
        simp only [Point.successors, List.mem_cons, List.not_mem_nil, or_false] at hr hold
        rcases hr with rfl | rfl
        · exact htarget
        · exact hold (.inr rfl)
      | evaluate | assign | ret | unsupported => exact hold hr
    · rw [get?_aimTrue_of_ne d target hpq] at hq
      exact h.lt_of_get? hq hr
  slots_lt := by
    rw [size_graph_aimTrue]
    exact h.slots_lt
  entries_lt := by
    rw [size_graph_aimTrue]
    exact h.entries_lt

end Sound

/-- Building keeps all handles within the graph. -/
theorem Builds.sound (h : d.Builds ps d') (hd : d.Sound) : d'.Sound := by
  induction h with
  | refl => exact hd
  | add _ point _ hhandles ih => exact ih.add point hhandles
  | @slot _ label _ _ ih => exact ih.slot label
  | enter _ label hentry ih => exact ih.enter label hentry
  | aimTrue _ _ htarget ih => exact ih.aimTrue _ htarget

/-! ### Settling -/

lemma exists_mem_of_leads (h : Leads d.redirects p q) :
    ∃ label, (label, p) ∈ d.slots ∧ (label, q) ∈ d.entries := by
  obtain ⟨⟨label, p'⟩, hslot, heq⟩ := List.mem_filterMap.1 (mem_of_lookup_eq_some h)
  obtain ⟨q', hentry, heq⟩ := Option.map_eq_some_iff.1 heq
  obtain ⟨rfl, rfl⟩ := Prod.mk.inj heq
  exact ⟨label, hslot, mem_of_lookup_eq_some hentry⟩

/-- What is no placeholder is not sent on. -/
lemma resolve_eq_self (h : ∀ label, (label, p) ∉ d.slots) : d.resolve p = p := by
  refine resolve_eq_of_reaches .refl fun q hq => ?_
  obtain ⟨label, hslot, -⟩ := exists_mem_of_leads hq
  exact absurd hslot (h label)

namespace Sound

lemma resolve_lt (h : d.Sound) (hp : p < d.graph.size) : d.resolve p < d.graph.size := by
  have hreach := reaches_resolve (d := d) p
  generalize d.resolve p = q at hreach ⊢
  induction hreach with
  | refl => exact hp
  | tail _ hab _ =>
    obtain ⟨label, -, hentry⟩ := exists_mem_of_leads hab
    exact h.entries_lt label _ hentry

lemma settle (h : d.Sound) : d.settle.Sound where
  closed := FlowGraph.closed_iff.2 fun p point hp q hq => by
    rw [get?_settle, Option.map_eq_some_iff] at hp
    obtain ⟨point, hpoint, rfl⟩ := hp
    rw [Point.successors_redirect] at hq
    obtain ⟨r, hr, rfl⟩ := List.mem_map.1 hq
    rw [size_graph_settle]
    exact h.resolve_lt (h.lt_of_get? hpoint hr)
  slots_lt := by
    rw [size_graph_settle]
    exact h.slots_lt
  entries_lt := by
    rw [size_graph_settle]
    exact h.entries_lt

end Sound

end Draft

end Staged
