import Staged.Proofs.Solution.Greatest

/-!
How long the sweeps go on. The loop sweeps once more exactly if a meet of the last sweep reports a
change. Such a report costs a known variable at some node, and nothing that was lost comes back, in
whatever way the choices depend on the divisions: so there are at most as many sweeps as there are
known variables at all nodes together, and one more.
-/

namespace Staged

namespace Constraint

/-- Whether a meet reports a change when the constraint is imposed. -/
def lowers (decides : Nat → Division → Bool) (f : Family) : Constraint → Bool
  | below i source => (f.get i).meetAllLowers (f.get source)
  | needs i v used => (f.get i).meetLowers v ((f.get i).isKnown used)
  | guarded i v guard => (f.get i).meetLowers v (decides guard (f.get guard))
  | never i v => (f.get i).meetLowers v false

variable {decides : Nat → Division → Bool} {f : Family} {c : Constraint}

lemma meetLowers_iff {i : Nat} {v : Var} {known : Bool} :
    (f.get i).meetLowers v known ↔
      ∃ j w, (f.get j).isKnown w ∧ ¬ ((f.lower i v known).get j).isKnown w := by
  simp only [Division.meetLowers, isKnown_lower, Bool.and_eq_true, Bool.not_eq_true']
  grind

lemma meetAllLowers_iff {i source : Nat} :
    (f.get i).meetAllLowers (f.get source) ↔ ∃ j w, (f.get j).isKnown w ∧
      ¬ (((below i source).impose decides f).get j).isKnown w := by
  rw [Division.meetAllLowers_iff]
  simp only [impose, Family.get_modify]
  constructor
  · rintro ⟨v, hv⟩
    have hle := Division.le_iff.1 (Division.meetAll_le_left (f.get i) (f.get source)) v
    have hknown : (f.get i).isKnown v := by grind
    refine ⟨i, v, hknown, ?_⟩
    rw [if_pos ⟨rfl, Family.lt_size_of_isKnown hknown⟩]
    grind
  · rintro ⟨j, v, hknown, hlost⟩
    split at hlost
    · next h => exact ⟨v, by grind⟩
    · exact absurd hknown hlost

/-- The meets report what imposing the constraint does to the knowledge. -/
lemma lowers_iff : c.lowers decides f ↔
    ∃ j w, (f.get j).isKnown w ∧ ¬ ((c.impose decides f).get j).isKnown w := by
  cases c with
  | below i source => exact meetAllLowers_iff
  | needs | guarded | never => exact meetLowers_iff

lemma size_impose : (c.impose decides f).size = f.size := by
  cases c <;> simp [impose, Family.lower]

end Constraint

namespace Family

variable {decides : Nat → Division → Bool} {cs : List Constraint} {f g : Family}

/-- The families that a sweep leads through, the first and the last one included. -/
def course (decides : Nat → Division → Bool) : List Constraint → Family → List Family
  | [], f => [f]
  | c :: cs, f => f :: course decides cs (c.impose decides f)

/-- Whether a meet of the sweep reports a change. -/
def changes (decides : Nat → Division → Bool) : List Constraint → Family → Bool
  | [], _ => false
  | c :: cs, f => c.lowers decides f || changes decides cs (c.impose decides f)

/-- The loop, with the families that each of its sweeps leads through: it sweeps, and starts again
as long as the sweep reports a change. -/
inductive Settles (decides : Nat → Division → Bool) (cs : List Constraint) :
    Family → List (List Family) → Family → Prop
  | stop {f : Family} (unchanged : f.changes decides cs = false) :
      Settles decides cs f [f.course decides cs] (f.sweep decides cs)
  | again {f g : Family} {courses : List (List Family)} (changed : f.changes decides cs = true)
      (rest : Settles decides cs (f.sweep decides cs) courses g) :
      Settles decides cs f (f.course decides cs :: courses) g

/-! ### Each change costs a known variable -/

lemma sweep_cons {c : Constraint} :
    f.sweep decides (c :: cs) = (c.impose decides f).sweep decides cs := rfl

lemma size_sweep : (f.sweep decides cs).size = f.size := by
  induction cs generalizing f with
  | nil => rfl
  | cons c cs ih => rw [sweep_cons, ih, Constraint.size_impose]

lemma knownCount_impose_le {c : Constraint} : (c.impose decides f).knownCount ≤ f.knownCount :=
  knownCount_le Constraint.size_impose Constraint.impose_le

lemma knownCount_impose_lt_iff {c : Constraint} :
    (c.impose decides f).knownCount < f.knownCount ↔ c.lowers decides f := by
  rw [Constraint.lowers_iff]
  constructor
  · intro hlt
    by_contra hsame
    have hge : ∀ i, (f.get i).le ((c.impose decides f).get i) := fun i =>
      Division.le_iff.2 fun v hv => by_contra fun hlost => hsame ⟨i, v, hv, hlost⟩
    exact Nat.not_le.2 hlt (knownCount_le Constraint.size_impose.symm hge)
  · rintro ⟨i, v, hv, hlost⟩
    by_contra hcount
    have hback := le_of_knownCount_le Constraint.size_impose (Constraint.impose_le (c := c))
      (Nat.le_of_not_lt hcount) i
    exact hlost (Division.le_iff.1 hback v hv)

lemma knownCount_sweep_le : (f.sweep decides cs).knownCount ≤ f.knownCount :=
  knownCount_le size_sweep sweep_le

/-- The reports of a sweep tell whether it takes any knowledge away. -/
lemma knownCount_sweep_lt_iff :
    (f.sweep decides cs).knownCount < f.knownCount ↔ f.changes decides cs := by
  induction cs generalizing f with
  | nil => simp [changes, sweep]
  | cons c cs ih =>
    have hfirst : (c.impose decides f).knownCount ≤ f.knownCount := knownCount_impose_le
    have hrest : (f.sweep decides (c :: cs)).knownCount ≤ (c.impose decides f).knownCount :=
      knownCount_sweep_le (f := c.impose decides f)
    rw [changes, Bool.or_eq_true, ← knownCount_impose_lt_iff, ← ih, ← sweep_cons]
    omega

lemma knownCount_replicate (size : Nat) (seed : Division) :
    knownCount (Array.replicate size seed) = seed.knownCount * size := by
  simp only [knownCount, Array.toList_replicate]
  induction size with
  | zero => simp
  | succ size ih => rw [List.replicate_succ, List.foldr_cons, ih, Nat.mul_succ, Nat.add_comm]

/-- The loop ends, with one sweep for each known variable at the most, and one more. -/
lemma exists_settles (decides : Nat → Division → Bool) (cs : List Constraint) (f : Family) :
    ∃ courses, Settles decides cs f courses (f.settle decides cs) ∧
      courses.length ≤ f.knownCount + 1 := by
  fun_induction settle decides cs f with
  | case1 f swept hlt ih =>
    obtain ⟨courses, hrest, hlength⟩ := ih
    refine ⟨_, .again (knownCount_sweep_lt_iff.1 hlt) hrest, ?_⟩
    rw [List.length_cons]
    omega
  | case2 f swept hge =>
    have hsame : f.changes decides cs = false := by
      rw [← Bool.not_eq_true, ← knownCount_sweep_lt_iff]
      exact hge
    exact ⟨_, .stop hsame, by simp⟩

/-! ### What is lost stays lost -/

lemma le_of_mem_course (h : g ∈ f.course decides cs) (i : Nat) :
    (g.get i).le (f.get i) ∧ ((f.sweep decides cs).get i).le (g.get i) := by
  induction cs generalizing f with
  | nil =>
    obtain rfl := List.mem_singleton.1 h
    exact ⟨Division.le_refl _, Division.le_refl _⟩
  | cons c cs ih =>
    rcases List.mem_cons.1 h with rfl | h
    · exact ⟨Division.le_refl _, sweep_le i⟩
    · obtain ⟨hbelow, habove⟩ := ih h
      exact ⟨Division.le_trans hbelow (Constraint.impose_le i), habove⟩

lemma pairwise_course :
    (f.course decides cs).Pairwise fun earlier later => ∀ i, (later.get i).le (earlier.get i) := by
  induction cs generalizing f with
  | nil => exact List.pairwise_singleton _ _
  | cons c cs ih =>
    refine List.pairwise_cons.2 ⟨fun g hg i => ?_, ih⟩
    exact Division.le_trans (le_of_mem_course hg i).1 (Constraint.impose_le i)

lemma Settles.le_of_mem {courses : List (List Family)} {h : Family}
    (hsettles : Settles decides cs f courses g) (hmem : h ∈ courses.flatten) (i : Nat) :
    (h.get i).le (f.get i) := by
  induction hsettles with
  | stop => exact (le_of_mem_course (by simpa using hmem) i).1
  | again _ _ ih =>
    rcases List.mem_append.1 (List.flatten_cons ▸ hmem) with hmem | hmem
    · exact (le_of_mem_course hmem i).1
    · exact Division.le_trans (ih hmem) (sweep_le i)

/-- Through all sweeps, no node ever comes to know a variable that it did not know before. -/
lemma Settles.pairwise {courses : List (List Family)} (hsettles : Settles decides cs f courses g) :
    courses.flatten.Pairwise fun earlier later => ∀ i, (later.get i).le (earlier.get i) := by
  induction hsettles with
  | stop => simpa using pairwise_course
  | again _ hrest ih =>
    rw [List.flatten_cons]
    refine List.pairwise_append.2 ⟨pairwise_course, ih, fun a ha b hb i => ?_⟩
    exact Division.le_trans (hrest.le_of_mem hb i) (le_of_mem_course ha i).2

end Family

namespace Flow

variable {P : Type} [DecidableEq P]

/-- **The sweeps end.** Whatever decides the choices, monotone or not, the loop of the solution ends
after at most one sweep for each known variable of the seed at each node, and one more. From one
family of divisions to any later one, within a sweep too, knowledge is only lost. -/
theorem solve_settles (f : Flow P) (decides : P → Division → Bool) (seed : Division) :
    let g := f.dependencies
    ∃ courses final,
      Family.Settles (g.decidesAt decides) g.constraints (Array.replicate g.size seed) courses
        final ∧
      g.solve decides seed = ⟨(g.nodes.toList.map Node.point).zip final.toList⟩ ∧
      courses.length ≤ seed.knownCount * g.size + 1 ∧
      courses.flatten.Pairwise fun earlier later => ∀ i, (later.get i).le (earlier.get i) := by
  intro g
  obtain ⟨courses, hsettles, hlength⟩ :=
    Family.exists_settles (g.decidesAt decides) g.constraints (Array.replicate g.size seed)
  rw [Family.knownCount_replicate] at hlength
  exact ⟨courses, _, hsettles, rfl, hlength, hsettles.pairwise⟩

end Flow

end Staged
