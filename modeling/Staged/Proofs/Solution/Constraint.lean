import Staged.Solution
import Staged.Proofs.Division

/-!
What one constraint does to a family of divisions: it leaves exactly the knowledge that it allows.
From this follow the three facts that a sweep of constraints inherits: knowledge is only taken away,
none is taken from a family that meets the constraint, and a constraint that takes nothing is met.
-/

namespace Staged

namespace Family

lemma get_modify (f : Family) (i j : Nat) (k : Division → Division) :
    Family.get (f.modify i k) j = if i = j ∧ i < f.size then k (f.get j) else f.get j := by
  simp only [get, Array.getElem?_modify]
  by_cases hij : i = j
  · subst hij
    by_cases hi : i < f.size <;> simp [hi]
  · simp [hij]

lemma get_of_size_le {f : Family} {i : Nat} (h : f.size ≤ i) : f.get i = .empty := by
  simp [get, Array.getElem?_eq_none h]

lemma lt_size_of_isKnown {f : Family} {i : Nat} {v : Var} (h : (f.get i).isKnown v) :
    i < f.size := by
  refine Nat.lt_of_not_le fun hi => ?_
  simp [get_of_size_le hi] at h

/-- A family made of `seed`: every node still stores the answers of `seed`, and knows no more. -/
structure Within (seed : Division) (size : Nat) (f : Family) : Prop where
  size_eq : f.size = size
  stores : ∀ i < size, ∀ v, seed.Stores v → (f.get i).Stores v
  le_seed : ∀ i, (f.get i).le seed

lemma within_replicate (seed : Division) (size : Nat) :
    Within seed size (Array.replicate size seed) where
  size_eq := Array.size_replicate
  stores i hi v hv := by simpa [get, hi] using hv
  le_seed i := by
    refine Division.le_iff.2 fun v hv => ?_
    have hi := lt_size_of_isKnown hv
    rw [Array.size_replicate] at hi
    simpa [get, hi] using hv

end Family

namespace Constraint

variable (decides : Nat → Division → Bool)

/-- Whether a constraint lets node `j` know `w`, where the nodes know what the divisions `F` say. -/
def Allows (F : Nat → Division) : Constraint → (j : Nat) → (w : Var) → Prop
  | below i source, j, w => j = i → (F source).isKnown w
  | needs i v used, j, w => j = i → w = v → (F i).isKnown used
  | guarded i v guard, j, w => j = i → w = v → decides guard (F guard)
  | never i v, j, w => ¬ (j = i ∧ w = v)

/-- The nodes know nothing that the constraint forbids. -/
def Holds (F : Nat → Division) (c : Constraint) : Prop :=
  ∀ j w, (F j).isKnown w → c.Allows decides F j w

/-- The node from which a constraint takes a whole division is one of the first `size` nodes. -/
def InRange (size : Nat) : Constraint → Prop
  | below _ source => source < size
  | needs .. | guarded .. | never .. => True

variable {decides}

lemma Allows.mono (mono : ∀ i d e, d.le e → decides i d → decides i e) {F G : Nat → Division}
    (h : ∀ i, (F i).le (G i)) {c : Constraint} {j : Nat} {w : Var} (ha : c.Allows decides F j w) :
    c.Allows decides G j w := by
  cases c with
  | below i source => exact fun hj => Division.le_iff.1 (h source) w (ha hj)
  | needs i v used => exact fun hj hw => Division.le_iff.1 (h i) used (ha hj hw)
  | guarded i v guard => exact fun hj hw => mono guard _ _ (h guard) (ha hj hw)
  | never i v => exact ha

variable {seed : Division} {size : Nat} {f : Family} {c : Constraint}

lemma isKnown_lower {f : Family} {i j : Nat} {v w : Var} {known : Bool} :
    ((f.lower i v known).get j).isKnown w ↔
      (f.get j).isKnown w ∧ (j = i → w = v → known = true) := by
  rw [Family.lower, Family.get_modify]
  split
  · next h =>
    rw [Division.isKnown_meet, Bool.and_eq_true, Bool.or_eq_true, decide_eq_true_eq]
    grind
  · next h =>
    refine ⟨fun hk => ⟨hk, fun hj _ => ?_⟩, fun hk => hk.1⟩
    exact absurd ⟨hj.symm, hj ▸ Family.lt_size_of_isKnown hk⟩ h

/-- A constraint leaves exactly the knowledge that it allows. -/
lemma isKnown_impose (hf : f.Within seed size) (hc : c.InRange size) {j : Nat} {w : Var} :
    ((c.impose decides f).get j).isKnown w ↔
      (f.get j).isKnown w ∧ c.Allows decides f.get j w := by
  cases c with
  | below i source =>
    rw [impose, Family.get_modify]
    split
    · next h =>
      rw [Division.isKnown_meetAll]
      refine and_congr_right fun hk => ?_
      -- what is known was known in the seed, and so it is stored at the source
      have hseed := Division.Stores.of_isKnown (Division.le_iff.1 (hf.le_seed j) w hk)
      have hstores := hf.stores source hc w hseed
      exact ⟨fun ha _ => ha hstores, fun ha _ => ha h.1.symm⟩
    · next h =>
      refine ⟨fun hk => ⟨hk, fun hj => ?_⟩, fun hk => hk.1⟩
      exact absurd ⟨hj.symm, hj ▸ Family.lt_size_of_isKnown hk⟩ h
  | needs i v used => exact isKnown_lower
  | guarded i v guard => exact isKnown_lower
  | never i v =>
    rw [impose, isKnown_lower]
    refine and_congr_right fun _ => ?_
    simp [Allows]

/-- A constraint takes knowledge away only, whatever the family is made of. -/
lemma impose_le (i : Nat) : ((c.impose decides f).get i).le (f.get i) := by
  refine Division.le_iff.2 fun v hv => ?_
  cases c with
  | below j source =>
    rw [impose, Family.get_modify] at hv
    split at hv
    · exact (Division.isKnown_meetAll.1 hv).1
    · exact hv
  | needs | guarded | never => exact (isKnown_lower.1 hv).1

lemma within_impose (hf : f.Within seed size) (hc : c.InRange size) :
    (c.impose decides f).Within seed size where
  size_eq := by
    rw [← hf.size_eq]
    cases c <;> simp [impose, Family.lower]
  stores i hi v hv := by
    have := hf.stores i hi v hv
    cases c with
    | below j source =>
      rw [impose, Family.get_modify]
      split
      · exact Division.stores_meetAll_of_stores this
      · exact this
    | needs | guarded | never =>
      rw [impose, Family.lower, Family.get_modify]
      split
      · exact Division.stores_meet.2 (.inr this)
      · exact this
  le_seed i := Division.le_trans (impose_le i) (hf.le_seed i)

/-- Nothing is taken from divisions that meet the constraint. -/
lemma le_impose (mono : ∀ i d e, d.le e → decides i d → decides i e)
    (hf : f.Within seed size) (hc : c.InRange size) {F : Nat → Division}
    (hF : ∀ i, (F i).le (f.get i)) (hold : c.Holds decides F) (i : Nat) :
    (F i).le ((c.impose decides f).get i) := by
  refine Division.le_iff.2 fun v hv => ?_
  exact (isKnown_impose hf hc).2 ⟨Division.le_iff.1 (hF i) v hv, (hold i v hv).mono mono hF⟩

/-- A constraint that takes nothing away is met. -/
lemma holds_of_le_impose (hf : f.Within seed size) (hc : c.InRange size)
    (h : ∀ i, (f.get i).le ((c.impose decides f).get i)) : c.Holds decides f.get :=
  fun j w hw => ((isKnown_impose hf hc).1 (Division.le_iff.1 (h j) w hw)).2

lemma Holds.congr (mono : ∀ i d e, d.le e → decides i d → decides i e) {F G : Nat → Division}
    (hFG : ∀ i, (F i).le (G i)) (hGF : ∀ i, (G i).le (F i)) (h : c.Holds decides F) :
    c.Holds decides G :=
  fun j w hw => (h j w (Division.le_iff.1 (hGF j) w hw)).mono mono hFG

end Constraint

end Staged
