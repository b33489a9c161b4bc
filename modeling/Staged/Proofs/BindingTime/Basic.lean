import Staged.Proofs.Graph.Targets
import Staged.Proofs.Solution.Definitions
import Staged.Proofs.Step.Decided

/-!
Flow graphs under a binding-time analysis: the variables that guard a choice, what an assignment
uses and defines, and the names of variables.
-/

namespace Staged

namespace NameTable

variable {names : NameTable} {x y : Ident}

/-- Where an identifier stands says nothing about its variable. -/
lemma resolve_congr (h : x.name = y.name) : names.resolve x = names.resolve y := by
  simp [resolve, Ident.isBlank, h]

lemma resolve_of_not_isBlank (h : x.isBlank = false) : names.resolve x = names.var? x.name := by
  simp [resolve, h]

lemma mem_of_resolve_eq_some {u : Var} (h : names.resolve x = some u) : x.name ∈ names.names := by
  have hvar : names.var? x.name = some u := by
    simp only [resolve] at h
    split at h
    · simp at h
    · exact h
  by_contra hx
  rw [var?, List.idxOf?_eq_none_iff.2 hx] at hvar
  simp at hvar

/-- Every identifier among the targets is declared, unless it is blank. -/
def Declares (names : NameTable) (targets : List Expr) : Prop :=
  ∀ x, .ident x ∈ targets → x.isBlank = false → (names.var? x.name).isSome

end NameTable

namespace FlowGraph

variable {g : FlowGraph} {resolve : Resolver} {entry p next : PointId}
  {targets values : List Expr} {define : Bool}

/-- The variables that must be known for the choice at a point to be made, if it can be made. -/
def guards (g : FlowGraph) (resolve : Resolver) (p : PointId) : Option (List Var) :=
  match g.get? p with
  | some (.branch (some test) _ _) => some (Expr.vars resolve [test])
  | some (.branch none _ _) => none
  | _ => some []

lemma decidedBy_flow (g : FlowGraph) (resolve : Resolver) (entry : PointId) :
    (g.flow resolve entry).DecidedBy (g.guards resolve) := by
  intro p d
  rcases hp : g.get? p with _ | point
  · simp [flow, guards, hp]
  · cases point with
    | branch test ifTrue ifFalse => cases test <;> simp [flow, guards, hp, Point.decides]
    | _ => simp [flow, guards, hp, Point.decides]

/-- What the values of an assignment read, the assignment uses. -/
lemma mem_uses_flow (hp : g.get? p = some (.assign targets values define next)) {e : Expr}
    (he : e ∈ values) {x : Ident} (hx : x ∈ e.idents) {u : Var} (hu : resolve x = some u) :
    u ∈ (g.flow resolve entry).uses p := by
  have hreads : e ∈ (Point.assign targets values define next).reads := List.mem_append_left _ he
  simpa [flow, hp, Point.uses] using Expr.mem_vars.2 ⟨e, hreads, x, hx, hu⟩

lemma Assigns.mem_uses {y : Ident} {e? : Option Expr} (h : g.Assigns p y e?) {e : Expr} (he : e ∈ e?)
    {x : Ident} (hx : x ∈ e.idents) {u : Var} (hu : resolve x = some u) :
    u ∈ (g.flow resolve entry).uses p := by
  obtain ⟨targets, values, define, next, hp, i, -, rfl⟩ := h
  exact mem_uses_flow hp (List.mem_of_getElem? he) hx hu

lemma Assigns.mem_definitions {y : Ident} {e? : Option Expr} (h : g.Assigns p y e?) {u : Var}
    (hu : resolve y = some u) : u ∈ (g.flow resolve entry).definitions p := by
  obtain ⟨targets, values, define, next, hp, i, hi, -⟩ := h
  simp only [flow, hp, Option.map_some, Option.getD_some, Point.definitions, Point.writes,
    List.mem_eraseDups, List.mem_filterMap]
  exact ⟨y, ⟨_, List.mem_of_getElem? hi, rfl⟩, hu⟩

lemma DecidedStep.mem_successors {a b : State} (h : g.DecidedStep a b) :
    b.point ∈ (g.flow resolve entry).successors a.point := by
  obtain ⟨point, hp, hb, -⟩ := h.cases
  simpa [flow, successors, hp] using hb

/-- **Steps.** Let `A` hold of the names before a step and `A'` after it, as far as the variables are
known where they come from. It is enough that `A'` holds of a name assigned to as soon as `A` holds of
all that the assignment uses. -/
theorem traced_step {names : NameTable} {seed : Division} {A A' : String → Prop} {a b : State}
    (h : g.DecidedStep a b) (hreach : (g.flow names.resolve entry).Reaches entry a.point)
    (htraced : ∀ x u, names.resolve x = some u →
      (g.flow names.resolve entry).Traced seed a.point u (A x.name))
    (hkeep : ∀ x, (∀ y e?, g.Assigns a.point y e? → y.isBlank = false → y.name ≠ x) → A x → A' x)
    (hset : ∀ y e? u, g.Assigns a.point y e? → y.isBlank = false → names.resolve y = some u →
      (g.flow names.resolve entry).KnownAt seed a.point u →
      (∀ z w, names.resolve z = some w → w ∈ (g.flow names.resolve entry).uses a.point →
        A z.name) → A' y.name) (x : Ident) (u : Var) (hx : names.resolve x = some u) :
    (g.flow names.resolve entry).Traced seed b.point u (A' x.name) := by
  have hdecided := g.decidedBy_flow names.resolve entry
  have hb : b.point ∈ (g.flow names.resolve entry).successors a.point := h.mem_successors
  by_cases htarget : ∃ y e?, g.Assigns a.point y e? ∧ y.isBlank = false ∧ y.name = x.name
  · obtain ⟨y, e?, hy, hblank, heq⟩ := htarget
    have hyu : names.resolve y = some u := (NameTable.resolve_congr heq).trans hx
    have hdef : u ∈ (g.flow names.resolve entry).definitions a.point := hy.mem_definitions hyu
    refine .of_definition hreach hb hdef fun hu => heq ▸ hset y e? u hy hblank hyu hu ?_
    intro z w hz huse
    exact (htraced z w hz).of_knownAt hdecided hreach huse (hu.uses hdecided hreach hdef huse)
  · refine ((htraced x u hx).imp (hkeep x.name fun y e? hy hblank heq => ?_)).step hb
    exact htarget ⟨y, e?, hy, hblank, heq⟩

end FlowGraph

end Staged
