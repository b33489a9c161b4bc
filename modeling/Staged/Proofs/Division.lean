import Staged.Division
import Mathlib.Data.Finset.Card
import Mathlib.Data.List.Nodup

/-!
The order of divisions: what is known under one is known under the other. Meeting all of another
division gives the greatest lower bound where that division stores enough answers. A division has
finitely many known variables, and one below another with as many known variables knows the same.
-/

namespace Staged.Division

lemma mem_entries_iff {d : Division} {v : Var} {known : Bool} :
    (v, known) ∈ d.entries ↔ d.get? v = some known := by
  obtain ⟨entries, sorted⟩ := d
  unfold get?
  induction entries with
  | nil => simp
  | cons head rest ih =>
    obtain ⟨w, b⟩ := head
    obtain ⟨hw, hs⟩ := List.pairwise_cons.1 sorted
    by_cases hv : v = w
    · subst hv
      have hnot : (v, known) ∉ rest := fun h => Nat.lt_irrefl v (hw _ h)
      simp [hnot, eq_comm]
    · simp [List.lookup_cons, beq_eq_false_iff_ne.2 hv, hv, ih hs]

lemma isKnown_iff {d : Division} {v : Var} : d.isKnown v ↔ (v, true) ∈ d.entries := by
  rw [mem_entries_iff, isKnown]
  cases d.get? v <;> simp

lemma le_iff {d e : Division} : d.le e ↔ ∀ v, d.isKnown v → e.isKnown v := by
  simp only [le, List.all_eq_true, Bool.or_eq_true, Bool.not_eq_true', Prod.forall, isKnown_iff]
  grind

lemma le_refl (d : Division) : d.le d := le_iff.2 fun _ h => h

lemma le_trans {d e f : Division} (hde : d.le e) (hef : e.le f) : d.le f :=
  le_iff.2 fun v h => le_iff.1 hef v (le_iff.1 hde v h)

/-! ### Meeting stored answers -/

/-- Whether an answer is stored for `v`. -/
def Stores (d : Division) (v : Var) : Prop := d.get? v ≠ none

@[simp] lemma stores_set {d : Division} {v w : Var} {known : Bool} :
    (d.set v known).Stores w ↔ w = v ∨ d.Stores w := by
  by_cases h : w = v <;> simp [Stores, h]

@[simp] lemma stores_meet {d : Division} {v w : Var} {known : Bool} :
    (d.meet v known).Stores w ↔ w = v ∨ d.Stores w := stores_set

lemma Stores.of_isKnown {d : Division} {v : Var} (h : d.isKnown v) : d.Stores v := by
  intro hv
  simp [isKnown, hv] at h

lemma isKnown_foldl_meet (entries : List (Var × Bool)) (d : Division) (v : Var) :
    (entries.foldl (fun d (w, known) => d.meet w known) d).isKnown v ↔
      d.isKnown v ∧ ∀ known, (v, known) ∈ entries → known = true := by
  induction entries generalizing d with
  | nil => simp
  | cons head rest ih =>
    obtain ⟨w, b⟩ := head
    rw [List.foldl_cons, ih]
    simp only [isKnown_meet, List.mem_cons, Prod.mk.injEq, Bool.and_eq_true, Bool.or_eq_true,
      decide_eq_true_eq]
    constructor
    · rintro ⟨⟨hd, hb⟩, hrest⟩
      refine ⟨hd, fun known hk => ?_⟩
      rcases hk with ⟨rfl, rfl⟩ | hk
      · exact hb.resolve_left fun h => h rfl
      · exact hrest known hk
    · rintro ⟨hd, hall⟩
      refine ⟨⟨hd, ?_⟩, fun known hk => hall known (.inr hk)⟩
      by_cases hv : v = w
      · exact .inr (hall b (.inl ⟨hv, rfl⟩))
      · exact .inl hv

/-- Only an answer that is stored takes knowledge away. -/
lemma isKnown_meetAll {d e : Division} {v : Var} :
    (d.meetAll e).isKnown v ↔ d.isKnown v ∧ (e.Stores v → e.isKnown v) := by
  rw [meetAll, isKnown_foldl_meet]
  simp only [mem_entries_iff, Stores, isKnown]
  rcases e.get? v with _ | b <;> simp

lemma stores_meetAll_of_stores {d e : Division} {v : Var} (h : d.Stores v) :
    (d.meetAll e).Stores v := by
  unfold meetAll
  induction e.entries generalizing d with
  | nil => exact h
  | cons head rest ih => exact ih (stores_meet.2 (.inr h))

/-! ### The meet as a bound -/

lemma get?_eq_some_false_iff {d : Division} {v : Var} :
    d.get? v = some false ↔ d.Stores v ∧ ¬ d.isKnown v := by
  simp only [Stores, isKnown]
  rcases d.get? v with _ | _ | _ <;> simp

/-- The meet reports what it does to the knowledge, not to the stored answers. -/
lemma meetAllLowers_iff {d e : Division} :
    d.meetAllLowers e ↔ ∃ v, (d.meetAll e).isKnown v ≠ d.isKnown v := by
  have hchanged {v : Var} :
      (d.meetAll e).isKnown v ≠ d.isKnown v ↔ d.isKnown v ∧ e.get? v = some false := by
    rw [ne_eq, Bool.eq_iff_iff, isKnown_meetAll, get?_eq_some_false_iff]
    tauto
  simp only [hchanged, meetAllLowers, List.any_eq_true, meetLowers, Prod.exists, mem_entries_iff]
  constructor
  · rintro ⟨v, known, hstored, h⟩
    obtain ⟨hd, rfl⟩ : d.isKnown v ∧ known = false := by simpa using h
    exact ⟨v, hd, hstored⟩
  · rintro ⟨v, hd, hstored⟩
    exact ⟨v, false, hstored, by simp [hd]⟩

lemma meetAll_le_left (d e : Division) : (d.meetAll e).le d :=
  le_iff.2 fun _ h => (isKnown_meetAll.1 h).1

lemma le_meetAll {c d e : Division} (hd : c.le d) (he : c.le e) : c.le (d.meetAll e) :=
  le_iff.2 fun v h => isKnown_meetAll.2 ⟨le_iff.1 hd v h, fun _ => le_iff.1 he v h⟩

/-- Knowledge of a variable for which `e` stores no answer is left as it was. -/
lemma meetAll_le_right_iff {d e : Division} :
    (d.meetAll e).le e ↔ ∀ v, d.isKnown v → e.Stores v := by
  simp only [le_iff, isKnown_meetAll]
  constructor
  · intro h v hd
    by_contra hstores
    exact hstores (.of_isKnown (h v ⟨hd, fun hs => absurd hs hstores⟩))
  · rintro h v ⟨hd, he⟩
    exact he (h v hd)

/-- **The meet is a greatest lower bound** where the second division stores an answer, known or not,
for all that the first one knows, and only there is it a lower bound. Whether it reports a change
does not depend on that: it does so exactly if something known has become unknown. -/
theorem meetAll_greatest_lower_bound (d e : Division) :
    (d.meetAllLowers e ↔ ∃ v, (d.meetAll e).isKnown v ≠ d.isKnown v) ∧
    ((∀ v, d.isKnown v → e.Stores v) →
      (∀ v, (d.meetAll e).isKnown v = (d.isKnown v && e.isKnown v)) ∧
      (d.meetAll e).le d ∧ (d.meetAll e).le e ∧
      ∀ c : Division, c.le d → c.le e → c.le (d.meetAll e)) ∧
    ((d.meetAll e).le e → ∀ v, d.isKnown v → e.Stores v) := by
  refine ⟨meetAllLowers_iff, fun hstores => ⟨fun v => ?_, meetAll_le_left d e,
    meetAll_le_right_iff.2 hstores, fun c => le_meetAll⟩, meetAll_le_right_iff.1⟩
  rw [Bool.eq_iff_iff, isKnown_meetAll, Bool.and_eq_true]
  exact and_congr_right fun hd => ⟨fun he => he (hstores v hd), fun he _ => he⟩

/-- Of two known variables the meet leaves the one that is known in both, and a third one, known in
the second division alone, stays unknown. -/
theorem meetAll_greatest_lower_bound_mixed :
    let d := ofList [(0, true), (1, true)]
    let e := ofList [(2, true), (1, false), (0, true)]
    (∀ v, d.isKnown v → e.Stores v) ∧ (d.meetAll e).le d ∧ (d.meetAll e).le e ∧
      d.meetAllLowers e ∧ (∀ v, (d.meetAll e).isKnown v ↔ v = 0) ∧
      ∀ c : Division, c.le d → c.le e → c.le (d.meetAll e) := by
  intro d e
  have hd {v : Var} : d.isKnown v ↔ v = 0 ∨ v = 1 := by
    simp only [d, ofList, List.foldl, isKnown_set, isKnown_empty]
    grind
  have hstores (v : Var) (h : d.isKnown v) : e.Stores v := by
    simp only [e, ofList, List.foldl, stores_set]
    rcases hd.1 h with rfl | rfl <;> simp
  obtain ⟨hlowers, hbound, -⟩ := meetAll_greatest_lower_bound d e
  obtain ⟨hknown, hle, hle', hgreatest⟩ := hbound hstores
  refine ⟨hstores, hle, hle', hlowers.2 ⟨1, by decide⟩, fun v => ?_, hgreatest⟩
  rw [hknown, Bool.and_eq_true, hd]
  constructor
  · rintro ⟨rfl | rfl, he⟩
    · rfl
    · exact absurd he (by decide)
  · rintro rfl
    exact ⟨.inl rfl, by decide⟩

/-- What `d` knows is not taken away by a division that stores nothing and so knows nothing. -/
theorem meetAll_keeps_unstored :
    let d := ofList [(0, true)]
    (d.meetAll empty).isKnown 0 ≠ (d.isKnown 0 && empty.isKnown 0) ∧
      ¬ (d.meetAll empty).le empty := by
  decide

/-! ### The number of known variables -/

/-- The known variables. -/
def knownVars (d : Division) : Finset Var := ((d.entries.filter (·.2)).map (·.1)).toFinset

@[simp] lemma mem_knownVars {d : Division} {v : Var} : v ∈ d.knownVars ↔ d.isKnown v := by
  simp [knownVars, isKnown_iff]

lemma card_knownVars (d : Division) : d.knownVars.card = d.knownCount := by
  have hnodup : ((d.entries.filter (·.2)).map (·.1)).Nodup := by
    have hlt : ((d.entries.filter (·.2)).map (·.1)).Pairwise (· < ·) :=
      List.pairwise_map.2 (d.sorted.filter _)
    exact hlt.imp fun h => Nat.ne_of_lt h
  rw [knownVars, List.toFinset_card_of_nodup hnodup, List.length_map, knownCount,
    List.countP_eq_length_filter]

lemma knownVars_subset {d e : Division} : d.knownVars ⊆ e.knownVars ↔ d.le e := by
  simp [Finset.subset_iff, le_iff]

lemma knownCount_le {d e : Division} (h : d.le e) : d.knownCount ≤ e.knownCount := by
  calc d.knownCount = d.knownVars.card := (card_knownVars d).symm
    _ ≤ e.knownVars.card := Finset.card_le_card (knownVars_subset.2 h)
    _ = e.knownCount := card_knownVars e

lemma le_of_knownCount_le {d e : Division} (h : d.le e) (hcount : e.knownCount ≤ d.knownCount) :
    e.le d := by
  rw [← card_knownVars, ← card_knownVars] at hcount
  have := Finset.eq_of_subset_of_card_le (knownVars_subset.2 h) hcount
  exact knownVars_subset.1 this.symm.subset

end Staged.Division
