import Staged.Proofs.Solution.Constraint

/-!
Sweeps of constraints, and where they come to rest. A sweep updates the divisions in place, so a
constraint is imposed on a family that the earlier ones have changed already; if the sweep as a
whole takes nothing away, no constraint did, and all of them are met.
-/

namespace Staged.Family

variable {decides : Nat → Division → Bool} {seed : Division} {size : Nat} {cs : List Constraint}
  {f : Family}

/-! ### One sweep -/

lemma within_sweep (hf : f.Within seed size) (hcs : ∀ c ∈ cs, c.InRange size) :
    (f.sweep decides cs).Within seed size := by
  unfold sweep
  induction cs generalizing f with
  | nil => exact hf
  | cons c cs ih =>
    obtain ⟨hc, hcs⟩ := List.forall_mem_cons.1 hcs
    exact ih (Constraint.within_impose hf hc) hcs

lemma sweep_le (i : Nat) : ((f.sweep decides cs).get i).le (f.get i) := by
  unfold sweep
  induction cs generalizing f with
  | nil => exact Division.le_refl _
  | cons c cs ih => exact Division.le_trans ih (Constraint.impose_le i)

/-- After a sweep nothing is known that one of its constraints forbids outright. -/
lemma not_isKnown_sweep (hf : f.Within seed size) (hcs : ∀ c ∈ cs, c.InRange size) {i : Nat}
    {v : Var} (h : .never i v ∈ cs) : ¬ ((f.sweep decides cs).get i).isKnown v := by
  induction cs generalizing f with
  | nil => simp at h
  | cons c cs ih =>
    obtain ⟨hc, hrest⟩ := List.forall_mem_cons.1 hcs
    have hf' : (c.impose decides f).Within seed size := Constraint.within_impose hf hc
    rcases List.mem_cons.1 h with rfl | h
    · -- what this constraint took away the rest of the sweep does not bring back
      intro hk
      have himpose := Division.le_iff.1 (sweep_le (f := Constraint.impose decides f _) i) v hk
      exact ((Constraint.isKnown_impose hf hc).1 himpose).2 ⟨rfl, rfl⟩
    · exact ih hf' hrest h

lemma le_sweep (mono : ∀ i d e, d.le e → decides i d → decides i e) (hf : f.Within seed size)
    (hcs : ∀ c ∈ cs, c.InRange size) {F : Nat → Division} (hF : ∀ i, (F i).le (f.get i))
    (hold : ∀ c ∈ cs, c.Holds decides F) (i : Nat) : (F i).le ((f.sweep decides cs).get i) := by
  unfold sweep
  induction cs generalizing f with
  | nil => exact hF i
  | cons c cs ih =>
    obtain ⟨hc, hcs⟩ := List.forall_mem_cons.1 hcs
    obtain ⟨hold, holds⟩ := List.forall_mem_cons.1 hold
    exact ih (Constraint.within_impose hf hc) hcs (Constraint.le_impose mono hf hc hF hold) holds

lemma holds_of_le_sweep (mono : ∀ i d e, d.le e → decides i d → decides i e)
    (hf : f.Within seed size) (hcs : ∀ c ∈ cs, c.InRange size)
    (h : ∀ i, (f.get i).le ((f.sweep decides cs).get i)) : ∀ c ∈ cs, c.Holds decides f.get := by
  induction cs generalizing f with
  | nil => simp
  | cons c cs ih =>
    obtain ⟨hc, hcs⟩ := List.forall_mem_cons.1 hcs
    have hf' : (c.impose decides f).Within seed size := Constraint.within_impose hf hc
    have hle : ∀ i, ((c.impose decides f).get i).le (f.get i) := Constraint.impose_le
    have hsweep : ∀ i, ((f.sweep decides (c :: cs)).get i).le ((c.impose decides f).get i) :=
      sweep_le (f := c.impose decides f)
    have hge : ∀ i, (f.get i).le ((c.impose decides f).get i) := fun i =>
      Division.le_trans (h i) (hsweep i)
    refine List.forall_mem_cons.2 ⟨Constraint.holds_of_le_impose hf hc hge, fun c' hc' => ?_⟩
    -- the rest of the sweep starts from a family that knows the same
    have hrest := ih hf' hcs (fun i => Division.le_trans (hle i) (h i)) c' hc'
    exact hrest.congr mono hle hge

/-! ### Until nothing changes -/

lemma knownCount_le_of_forall₂ {ds es : List Division}
    (h : List.Forall₂ (fun d e => d.le e) ds es) :
    knownCount ⟨ds⟩ ≤ knownCount ⟨es⟩ ∧
      (knownCount ⟨es⟩ ≤ knownCount ⟨ds⟩ → List.Forall₂ (fun d e => e.le d) ds es) := by
  simp only [knownCount]
  induction h with
  | nil => simp
  | cons hde _ ih =>
    obtain ⟨hle, hback⟩ := ih
    have hcount := Division.knownCount_le hde
    simp only [List.foldr_cons]
    refine ⟨by omega, fun hsum => ?_⟩
    exact .cons (Division.le_of_knownCount_le hde (by omega)) (hback (by omega))

lemma forall₂_le {f g : Family} (hsize : f.size = g.size) (h : ∀ i, (f.get i).le (g.get i)) :
    List.Forall₂ (fun d e => d.le e) f.toList g.toList := by
  refine List.forall₂_iff_get.2 ⟨by simpa using hsize, fun j hf hg => ?_⟩
  have := h j
  simp only [Array.length_toList] at hf hg
  simpa [get, hf, hg] using this

lemma knownCount_le {f g : Family} (hsize : f.size = g.size) (h : ∀ i, (f.get i).le (g.get i)) :
    f.knownCount ≤ g.knownCount :=
  (knownCount_le_of_forall₂ (forall₂_le hsize h)).1

/-- A family below another one that knows as much in number knows the same. -/
lemma le_of_knownCount_le {f g : Family} (hsize : f.size = g.size)
    (h : ∀ i, (f.get i).le (g.get i)) (hcount : g.knownCount ≤ f.knownCount) (i : Nat) :
    (g.get i).le (f.get i) := by
  have hback := (knownCount_le_of_forall₂ (forall₂_le hsize h)).2 hcount
  by_cases hi : i < g.size
  · have := (List.forall₂_iff_get.1 hback).2 i (by simpa [hsize] using hi) (by simpa using hi)
    have hi' : i < f.size := hsize ▸ hi
    simpa [get, hi, hi'] using this
  · rw [get_of_size_le (Nat.le_of_not_lt hi)]
    exact Division.le_iff.2 (by simp)

/-- What the sweeps keep holds where they end; and they end with a sweep after which as much is
known as before. -/
lemma settle_induct {Inv : Family → Prop} (step : ∀ f, Inv f → Inv (f.sweep decides cs))
    (hf : Inv f) : ∃ g, Inv g ∧ f.settle decides cs = g.sweep decides cs ∧
      g.knownCount ≤ (g.sweep decides cs).knownCount := by
  fun_induction settle decides cs f with
  | case1 f swept hlt ih => exact ih (step f hf)
  | case2 f swept hge => exact ⟨f, hf, rfl, Nat.le_of_not_lt hge⟩

lemma within_settle (hf : f.Within seed size) (hcs : ∀ c ∈ cs, c.InRange size) :
    (f.settle decides cs).Within seed size := by
  obtain ⟨g, hg, hend, -⟩ := settle_induct (fun g hg => within_sweep hg hcs) hf
  rw [hend]
  exact within_sweep hg hcs

/-- The sweeps do not have to end in a fixpoint for this: `decides` need not be monotone. -/
lemma not_isKnown_settle (hf : f.Within seed size) (hcs : ∀ c ∈ cs, c.InRange size) {i : Nat}
    {v : Var} (h : .never i v ∈ cs) : ¬ ((f.settle decides cs).get i).isKnown v := by
  obtain ⟨g, hg, hend, -⟩ := settle_induct (fun g hg => within_sweep hg hcs) hf
  rw [hend]
  exact not_isKnown_sweep hg hcs h

/-- **The greatest fixpoint.** Where the sweeps end all constraints are met, and every family of
divisions that meets them and lies below the start lies below the end. -/
theorem settle_greatest (mono : ∀ i d e, d.le e → decides i d → decides i e)
    (hf : f.Within seed size) (hcs : ∀ c ∈ cs, c.InRange size) :
    (f.settle decides cs).Within seed size ∧
      (∀ c ∈ cs, c.Holds decides (f.settle decides cs).get) ∧
      ∀ F : Nat → Division, (∀ i, (F i).le (f.get i)) → (∀ c ∈ cs, c.Holds decides F) →
        ∀ i, (F i).le ((f.settle decides cs).get i) := by
  refine ⟨within_settle hf hcs, ?_, fun F hF hold => ?_⟩
  · obtain ⟨g, hg, hend, hcount⟩ := settle_induct (fun g hg => within_sweep hg hcs) hf
    have hg' : (g.sweep decides cs).Within seed size := within_sweep hg hcs
    have hle : ∀ i, ((g.sweep decides cs).get i).le (g.get i) := sweep_le
    have hge := le_of_knownCount_le (hg'.size_eq.trans hg.size_eq.symm) hle hcount
    rw [hend]
    exact fun c hc => (holds_of_le_sweep mono hg hcs hge c hc).congr mono hge hle
  · have hstep (g : Family) (hg : g.Within seed size ∧ ∀ i, (F i).le (g.get i)) :
        (g.sweep decides cs).Within seed size ∧ ∀ i, (F i).le ((g.sweep decides cs).get i) :=
      ⟨within_sweep hg.1 hcs, le_sweep mono hg.1 hcs hg.2 hold⟩
    obtain ⟨g, ⟨hg, hFg⟩, hend, -⟩ := settle_induct hstep ⟨hf, hF⟩
    rw [hend]
    exact le_sweep mono hg hcs hFg hold

end Staged.Family
