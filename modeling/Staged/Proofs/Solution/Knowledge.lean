import Staged.Proofs.Dependency
import Staged.Proofs.Solution.Greatest
import Mathlib.Logic.Relation

/-!
What the nodes know in the solution of a flow. The rules of the solution say how knowledge is passed
on: what a node knows, its dependencies know. Conversely, whatever is closed under these rules is
known.
-/

namespace Staged

namespace Division

open Classical in
/-- What `seed` knows of the variables in `S`. -/
noncomputable def restrict (seed : Division) (S : Var → Prop) : Division :=
  ⟨seed.entries.filter fun e => S e.1, seed.sorted.filter _⟩

@[simp] lemma isKnown_restrict {seed : Division} {S : Var → Prop} {v : Var} :
    (seed.restrict S).isKnown v ↔ seed.isKnown v ∧ S v := by
  simp [isKnown_iff, restrict]

end Division

namespace Flow

variable {P : Type}

/-- Every choice needs certain variables to be known, or is never made. -/
def DecidedBy (f : Flow P) (guards : P → Option (List Var)) : Prop :=
  ∀ p d, f.decides p d ↔ ∃ us, guards p = some us ∧ ∀ u ∈ us, d.isKnown u

lemma DecidedBy.mono {f : Flow P} {guards : P → Option (List Var)} (h : f.DecidedBy guards) (p : P)
    (d e : Division) (hde : d.le e) (hd : f.decides p d) : f.decides p e := by
  obtain ⟨us, hus, hd⟩ := (h p d).1 hd
  exact (h p e).2 ⟨us, hus, fun u hu => Division.le_iff.1 hde u (hd u hu)⟩

lemma decidedBy_ofRows (rows : Array Row) (entry : Nat) :
    (ofRows rows .allUsesKnown entry).DecidedBy
      fun p => some ((ofRows rows .allUsesKnown entry).uses p) := by
  simp [DecidedBy, ofRows, Guard.decides]

variable [DecidableEq P]

/-- In the solution of the flow, node `i` of the dependency graph knows `v`. -/
def Knows (f : Flow P) (seed : Division) (i : Nat) (v : Var) : Prop :=
  ((f.dependencies.family f.decides seed).get i).isKnown v

/-- Knowledge that stands by the rules: it is part of the seed, and whatever a node knows by it, the
dependencies of the node know. -/
structure Closed (f : Flow P) (guards : P → Option (List Var)) (seed : Division)
    (S : Nat → Var → Prop) : Prop where
  isKnown_seed : ∀ i v, S i v → seed.isKnown v
  node : ∀ i v, S i v → ∃ n, f.dependencies.nodes[i]? = some n
  dataDep : ∀ i n v, S i v → f.dependencies.nodes[i]? = some n → ∀ d ∈ n.dataDeps, S d v
  uses : ∀ i n v, S i v → f.dependencies.nodes[i]? = some n → v ∈ n.definitions →
    ∀ u ∈ n.uses, S i u
  guard : ∀ i n v, S i v → f.dependencies.nodes[i]? = some n → v ∈ n.definitions →
    ∀ r, .branch r ∈ n.loopDeps → ∃ m us, f.dependencies.nodes[r]? = some m ∧
      guards m.point = some us ∧ ∀ u ∈ us, S r u
  bounded : ∀ i n v, S i v → f.dependencies.nodes[i]? = some n → v ∈ n.definitions →
    .unbounded ∉ n.loopDeps

section

variable {f : Flow P} {guards : P → Option (List Var)} {seed : Division}

/-- The divisions that the sweeps settle on meet all constraints, and know as much as divisions
that meet them can. -/
lemma family_greatest (mono : ∀ p d e, d.le e → f.decides p d → f.decides p e) (seed : Division) :
    let g := f.dependencies
    (g.family f.decides seed).Within seed g.size ∧
      (∀ c ∈ g.constraints,
        c.Holds (g.decidesAt f.decides) (g.family f.decides seed).get) ∧
      ∀ F : Nat → Division, (∀ i, (F i).le (Family.get (Array.replicate g.size seed) i)) →
        (∀ c ∈ g.constraints, c.Holds (g.decidesAt f.decides) F) →
        ∀ i, (F i).le ((g.family f.decides seed).get i) :=
  Family.settle_greatest (DependencyGraph.decidesAt_mono mono) (Family.within_replicate seed _)
    fun _ hc => DependencyGraph.inRange_of_mem_constraints
      (fun _ hn _ hq => lt_size_of_mem_dataDeps hn hq) hc

lemma isKnown_solve_iff_knows (mono : ∀ p d e, d.le e → f.decides p d → f.decides p e) {i : Nat}
    {n : Node P} (hn : f.dependencies.nodes[i]? = some n) {v : Var} :
    (f.dependencies.solve f.decides seed).isKnown n.point v ↔ f.Knows seed i v := by
  have hget := DependencyGraph.get?_solve f.nodup_map_point (family_greatest mono seed).1.size_eq hn
  simp [Solution.isKnown, hget, Knows]

/-- What is known, the rules let be known. -/
theorem closed_knows (h : f.DecidedBy guards) (seed : Division) :
    f.Closed guards seed (f.Knows seed) := by
  obtain ⟨hwithin, hold, -⟩ := family_greatest h.mono seed
  have hallows {i : Nat} {n : Node P} {c : Constraint} (hn : f.dependencies.nodes[i]? = some n)
      (hc : c ∈ n.constraints i) := hold c (DependencyGraph.mem_constraints.2 ⟨i, n, hn, hc⟩) i
  refine ⟨fun i v hv => ?_, fun i v hv => ?_, fun i n v hv hn d hd => ?_,
    fun i n v hv hn hdef u hu => ?_, fun i n v hv hn hdef r hr => ?_, fun i n v hv hn hdef hu => ?_⟩
  · exact Division.le_iff.1 (hwithin.le_seed i) v hv
  · have hi := Family.lt_size_of_isKnown hv
    rw [hwithin.size_eq] at hi
    exact ⟨_, Array.getElem?_eq_getElem hi⟩
  · exact hallows hn (DependencyGraph.mem_node_constraints.2 (.inl ⟨d, hd, rfl⟩)) v hv rfl
  · have hc : .needs i v u ∈ n.constraints i :=
      DependencyGraph.mem_node_constraints.2 (.inr ⟨v, hdef, .inl ⟨u, hu, rfl⟩⟩)
    exact hallows hn hc v hv rfl rfl
  · have hc : .guarded i v r ∈ n.constraints i :=
      DependencyGraph.mem_node_constraints.2 (.inr ⟨v, hdef, .inr (.inl ⟨r, hr, rfl⟩)⟩)
    have hdecides := hallows hn hc v hv rfl rfl
    unfold DependencyGraph.decidesAt at hdecides
    obtain ⟨m, hm, hdecides⟩ := (Option.any_eq_true _ _).1 hdecides
    obtain ⟨us, hus, hknown⟩ := (h m.point _).1 hdecides
    exact ⟨m, us, hm, hus, hknown⟩
  · have hc : .never i v ∈ n.constraints i :=
      DependencyGraph.mem_node_constraints.2 (.inr ⟨v, hdef, .inr (.inr ⟨hu, rfl⟩)⟩)
    exact hallows hn hc v hv ⟨rfl, rfl⟩

/-- Whatever stands by the rules is known. -/
theorem Closed.knows {S : Nat → Var → Prop} (hS : f.Closed guards seed S)
    (h : f.DecidedBy guards) {i : Nat} {v : Var} (hv : S i v) : f.Knows seed i v := by
  obtain ⟨-, -, hgreatest⟩ := family_greatest h.mono seed
  let F (i : Nat) : Division := seed.restrict (S i)
  have hF {i : Nat} {v : Var} : (F i).isKnown v ↔ seed.isKnown v ∧ S i v :=
    Division.isKnown_restrict
  have hFS {i : Nat} {v : Var} (hv : S i v) : (F i).isKnown v := hF.2 ⟨hS.isKnown_seed i v hv, hv⟩
  refine Division.le_iff.1 (hgreatest F (fun i => ?_) (fun c hc => ?_) i) v (hFS hv)
  · refine Division.le_iff.2 fun v hv => ?_
    obtain ⟨hseed, hv⟩ := hF.1 hv
    obtain ⟨n, hn⟩ := hS.node i v hv
    have hi : i < f.dependencies.size := (Array.getElem?_eq_some_iff.1 hn).1
    rwa [Family.get, Array.getElem?_replicate, if_pos hi]
  · intro j w hw
    obtain ⟨-, hw⟩ := hF.1 hw
    obtain ⟨i, n, hn, hc⟩ := DependencyGraph.mem_constraints.1 hc
    rcases DependencyGraph.mem_node_constraints.1 hc with
      ⟨d, hd, rfl⟩ | ⟨v, hdef, ⟨u, hu, rfl⟩ | ⟨r, hr, rfl⟩ | ⟨hu, rfl⟩⟩
    · rintro rfl
      exact hFS (hS.dataDep j n w hw hn d hd)
    · rintro rfl rfl
      exact hFS (hS.uses j n w hw hn hdef u hu)
    · rintro rfl rfl
      obtain ⟨m, us, hm, hus, hknown⟩ := hS.guard j n w hw hn hdef r hr
      rw [DependencyGraph.decidesAt, hm]
      exact (h m.point _).2 ⟨us, hus, fun u hu => hFS (hknown u hu)⟩
    · rintro ⟨rfl, rfl⟩
      exact hS.bounded j n w hw hn hdef hu

end

end Flow

end Staged
