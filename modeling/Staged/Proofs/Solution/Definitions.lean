import Staged.Proofs.Reachability
import Staged.Proofs.Solution.Knowledge

/-!
The points that define what a point uses. The value of a variable comes from the start or from a
point that defines it, and if the solution calls the variable known where it is used, it calls it
known where its value comes from. So a property that values have as soon as they are known at their
source is a property of all values that are known where they are used.
-/

namespace Staged.Flow

variable {P : Type} [DecidableEq P] {f : Flow P} {guards : P → Option (List Var)}
  {seed : Division} {p q : P} {u v : Var}

/-- The solution of the flow calls `v` known at `p`. -/
def KnownAt (f : Flow P) (seed : Division) (p : P) (v : Var) : Prop :=
  (f.dependencies.solve f.decides seed).isKnown p v

lemma knownAt_iff_knows (h : f.DecidedBy guards) (hp : f.Reaches f.entry p) :
    f.KnownAt seed p v ↔ f.Knows seed (f.points.idxOf p) v :=
  isKnown_solve_iff_knows h.mono (exists_node_of_reaches hp)

namespace KnownAt

lemma isKnown_seed (h : f.DecidedBy guards) (hp : f.Reaches f.entry p)
    (hv : f.KnownAt seed p v) : seed.isKnown v :=
  (closed_knows h seed).isKnown_seed _ v ((knownAt_iff_knows h hp).1 hv)

/-- What is known where it is used is known at each point before that defines it. -/
lemma of_definition (h : f.DecidedBy guards) (hq : f.Reaches f.entry q) (hqp : f.Reaches q p)
    (huse : u ∈ f.uses p) (hdef : u ∈ f.definitions q) (hu : f.KnownAt seed p u) :
    f.KnownAt seed q u := by
  by_cases hne : q = p
  · exact hne ▸ hu
  · have hp := hq.trans hqp
    rw [knownAt_iff_knows h hp] at hu
    rw [knownAt_iff_knows h hq]
    exact (closed_knows h seed).dataDep _ _ u hu (exists_node_of_reaches hp) _
      (idxOf_mem_dataDeps hq hqp hne huse hdef)

/-- What a point defines is known there only together with all that the point uses. -/
lemma uses (h : f.DecidedBy guards) (hp : f.Reaches f.entry p) (hdef : v ∈ f.definitions p)
    (huse : u ∈ f.uses p) (hv : f.KnownAt seed p v) : f.KnownAt seed p u := by
  rw [knownAt_iff_knows h hp] at hv ⊢
  exact (closed_knows h seed).uses _ _ v hv (exists_node_of_reaches hp) hdef u huse

end KnownAt

/-- `A` holds of the value that `u` has when control comes to `p`, provided that `u` is known where
this value comes from. -/
def Traced (f : Flow P) (seed : Division) (p : P) (u : Var) (A : Prop) : Prop :=
  (seed.isKnown u → A) ∨ ∃ q, f.Reaches f.entry q ∧ f.Reaches q p ∧ u ∈ f.definitions q ∧
    (f.KnownAt seed q u → A)

namespace Traced

variable {A B : Prop}

lemma imp (h : f.Traced seed p u A) (hAB : A → B) : f.Traced seed p u B := by
  rcases h with h | ⟨q, hq, hqp, hdef, h⟩
  · exact .inl fun hu => hAB (h hu)
  · exact .inr ⟨q, hq, hqp, hdef, fun hu => hAB (h hu)⟩

/-- A variable that a point leaves alone keeps its value. -/
lemma step (h : f.Traced seed p u A) (hq : q ∈ f.successors p) : f.Traced seed q u A := by
  rcases h with h | ⟨r, hr, hrp, hdef, h⟩
  · exact .inl h
  · exact .inr ⟨r, hr, hrp.tail hq, hdef, h⟩

/-- A variable that a point defines has its value from there. -/
lemma of_definition (hp : f.Reaches f.entry p) (hq : q ∈ f.successors p)
    (hdef : u ∈ f.definitions p) (h : f.KnownAt seed p u → A) : f.Traced seed q u A :=
  .inr ⟨p, hp, .single hq, hdef, h⟩

/-- **Sources.** What is traced holds where the variable is used and known. -/
theorem of_knownAt (hd : f.DecidedBy guards) (hp : f.Reaches f.entry p)
    (h : f.Traced seed p u A) (huse : u ∈ f.uses p) (hu : f.KnownAt seed p u) : A := by
  rcases h with h | ⟨q, hq, hqp, hdef, h⟩
  · exact h (hu.isKnown_seed hd hp)
  · exact h (hu.of_definition hd hq hqp huse hdef)

end Traced

end Staged.Flow
