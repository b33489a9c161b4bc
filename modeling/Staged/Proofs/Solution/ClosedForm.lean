import Staged.Proofs.Solution.Knowledge

/-!
The solution in closed form. Knowledge of a variable at a node stands on knowledge of other
variables at other nodes, as the rules of the solution say. A variable is known at a node exactly if
all that this stands on, taken to the end, is known in the seed, and no endless round is among it.
-/

namespace Staged

namespace DependencyGraph

variable {P : Type}

/-- What knowledge of a variable at a node stands on directly. -/
inductive Leads (g : DependencyGraph P) (guards : P → Option (List Var)) :
    Nat × Var → Nat × Var → Prop where
  | dataDep {i n d w} (hn : g.nodes[i]? = some n) (hd : d ∈ n.dataDeps) :
      Leads g guards (i, w) (d, w)
  | uses {i n w u} (hn : g.nodes[i]? = some n) (hw : w ∈ n.definitions) (hu : u ∈ n.uses) :
      Leads g guards (i, w) (i, u)
  | guard {i n w r m us u} (hn : g.nodes[i]? = some n) (hw : w ∈ n.definitions)
      (hr : .branch r ∈ n.loopDeps) (hm : g.nodes[r]? = some m) (hus : guards m.point = some us)
      (hu : u ∈ us) : Leads g guards (i, w) (r, u)

/-- Node `i` defines `w` in a round without an end, or with an end that depends on a choice that is
never made. -/
def Endless (g : DependencyGraph P) (guards : P → Option (List Var)) (i : Nat) (w : Var) : Prop :=
  ∃ n, g.nodes[i]? = some n ∧ w ∈ n.definitions ∧ (.unbounded ∈ n.loopDeps ∨
    ∃ r m, .branch r ∈ n.loopDeps ∧ g.nodes[r]? = some m ∧ guards m.point = none)

end DependencyGraph

namespace Flow

variable {P : Type} [DecidableEq P] {f : Flow P} {guards : P → Option (List Var)} {seed : Division}

lemma Closed.of_leads {S : Nat → Var → Prop} (hS : f.Closed guards seed S) {a b : Nat × Var}
    (h : f.dependencies.Leads guards a b) (ha : S a.1 a.2) : S b.1 b.2 := by
  cases h with
  | dataDep hn hd => exact hS.dataDep _ _ _ ha hn _ hd
  | uses hn hw hu => exact hS.uses _ _ _ ha hn hw _ hu
  | guard hn hw hr hm hus hu =>
    obtain ⟨m', us', hm', hus', hknown⟩ := hS.guard _ _ _ ha hn hw _ hr
    obtain rfl := Option.some.inj (hm.symm.trans hm')
    obtain rfl := Option.some.inj (hus.symm.trans hus')
    exact hknown _ hu

lemma Closed.of_reaches {S : Nat → Var → Prop} (hS : f.Closed guards seed S) {a b : Nat × Var}
    (h : Relation.ReflTransGen (f.dependencies.Leads guards) a b) (ha : S a.1 a.2) :
    S b.1 b.2 := by
  induction h with
  | refl => exact ha
  | tail _ hstep ih => exact hS.of_leads hstep ih

lemma Closed.not_endless {S : Nat → Var → Prop} (hS : f.Closed guards seed S) {i : Nat} {v : Var}
    (hv : S i v) : ¬ f.dependencies.Endless guards i v := by
  rintro ⟨n, hn, hdef, hu | ⟨r, m, hr, hm, hnone⟩⟩
  · exact hS.bounded i n v hv hn hdef hu
  · obtain ⟨m', us, hm', hus, -⟩ := hS.guard i n v hv hn hdef r hr
    obtain rfl := Option.some.inj (hm.symm.trans hm')
    simp [hnone] at hus

/-- All that the knowledge of `v` at node `i` stands on is known in the seed, and none of it is
defined in an endless round. -/
def Founded (f : Flow P) (guards : P → Option (List Var)) (seed : Division) (i : Nat) (v : Var) :
    Prop :=
  ∀ j w, Relation.ReflTransGen (f.dependencies.Leads guards) (i, v) (j, w) →
    seed.isKnown w ∧ ¬ f.dependencies.Endless guards j w

lemma Founded.of_leads {i j : Nat} {v w : Var} (h : f.Founded guards seed i v)
    (hlead : f.dependencies.Leads guards (i, v) (j, w)) : f.Founded guards seed j w :=
  fun k u hreach => h k u (.head hlead hreach)

/-- What is founded stands by the rules. -/
lemma closed_founded : f.Closed guards seed fun i v =>
    (∃ n, f.dependencies.nodes[i]? = some n) ∧ f.Founded guards seed i v where
  isKnown_seed i v hv := (hv.2 i v .refl).1
  node i v hv := hv.1
  dataDep i n v hv hn d hd := by
    have hlt := lt_size_of_mem_dataDeps (Array.mem_of_getElem? hn) hd
    exact ⟨⟨_, Array.getElem?_eq_getElem hlt⟩, hv.2.of_leads (.dataDep hn hd)⟩
  uses i n v hv hn hdef u hu := ⟨hv.1, hv.2.of_leads (.uses hn hdef hu)⟩
  guard i n v hv hn hdef r hr := by
    have hlt := lt_size_of_branch_mem_loopDeps (Array.mem_of_getElem? hn) hr
    obtain ⟨m, hm⟩ : ∃ m, f.dependencies.nodes[r]? = some m := ⟨_, Array.getElem?_eq_getElem hlt⟩
    rcases hus : guards m.point with _ | us
    · exact absurd ⟨n, hn, hdef, .inr ⟨r, m, hr, hm, hus⟩⟩ (hv.2 i v .refl).2
    · refine ⟨m, us, hm, hus, fun u hu => ⟨⟨m, hm⟩, hv.2.of_leads (.guard hn hdef hr hm hus hu)⟩⟩
  bounded i n v hv hn hdef hu := (hv.2 i v .refl).2 ⟨n, hn, hdef, .inl hu⟩

/-- **Closed form.** Where choices are made by the variables that guard them, a variable is known at
a node of the solution exactly if every variable at every node that it leads to is known in the
seed, and none of those is defined there in a round without an end, or with an end that depends on a
choice that is never made. -/
theorem isKnown_solve_iff_founded (f : Flow P) {guards : P → Option (List Var)}
    (h : f.DecidedBy guards) (seed : Division) {i : Nat} {n : Node P}
    (hn : f.dependencies.nodes[i]? = some n) (v : Var) :
    (f.dependencies.solve f.decides seed).isKnown n.point v ↔
      ∀ j w, Relation.ReflTransGen (f.dependencies.Leads guards) (i, v) (j, w) →
        seed.isKnown w ∧ ¬ f.dependencies.Endless guards j w := by
  rw [isKnown_solve_iff_knows h.mono hn]
  have hknows := closed_knows h seed
  constructor
  · intro hv j w hreach
    have hw : f.Knows seed j w := hknows.of_reaches hreach hv
    exact ⟨hknows.isKnown_seed j w hw, hknows.not_endless hw⟩
  · intro hfounded
    exact closed_founded.knows h ⟨⟨n, hn⟩, hfounded⟩

/-- In `for y { x = x; if z { break } }` variable 0 is counted on in the body. The round may end at
the test on variable 1 and at the break on variable 2, so where that is unknown, so is variable 0. -/
theorem isKnown_solve_iff_founded_break :
    let f := ofRows #[⟨[], [1], [1, 3]⟩, ⟨[0], [0], [2]⟩, ⟨[], [2], [3, 0]⟩, ⟨[], [], []⟩]
      .allUsesKnown 0
    let guards (p : Nat) := some (f.uses p)
    let seed := Division.ofList [(0, true), (1, true), (2, false)]
    f.DecidedBy guards ∧ ∃ n, f.dependencies.nodes[1]? = some n ∧ n.point = 1 ∧
      f.dependencies.Leads guards (1, 0) (3, 2) ∧
      ¬ (f.dependencies.solve f.decides seed).isKnown n.point 0 := by
  intro f guards seed
  have hdecided : f.DecidedBy guards := decidedBy_ofRows _ _
  have hbody : f.dependencies.nodes[1]?.map (fun n => (n.point, n.definitions, n.loopDeps)) =
      some (1, [0], [.branch 0, .branch 3]) := by decide +kernel
  have hbreak : f.dependencies.nodes[3]?.map Node.point = some 2 := by decide +kernel
  obtain ⟨n, hn, hn'⟩ := Option.map_eq_some_iff.1 hbody
  obtain ⟨m, hm, hm'⟩ := Option.map_eq_some_iff.1 hbreak
  simp only [Prod.mk.injEq] at hn'
  have hlead : f.dependencies.Leads guards (1, 0) (3, 2) :=
    .guard hn (by simp [hn'.2.1]) (by simp [hn'.2.2]) hm (congrArg guards hm') (by decide)
  refine ⟨hdecided, n, hn, hn'.1, hlead, fun h => ?_⟩
  have hseed := ((isKnown_solve_iff_founded f hdecided seed hn 0).1 h 3 2 (.single hlead)).1
  exact absurd hseed (by decide)

end Flow

end Staged
