import Staged.Scope
import Mathlib.Data.List.Induction
import Mathlib.Data.List.Nodup

/-!
What can be seen of a scope. Every scope is built by binds, so what holds of the empty scope and is
kept by each bind holds of all of them. The visible bindings are those that a look-up finds, the
most recent one first, and a scope that is collected from them again cannot be told from the first
one by any look-up.
-/

namespace Staged.Scope

/-- Every scope is built from the empty one by binds. -/
theorem bind_induction {motive : Scope → Prop} (empty : motive empty)
    (bind : ∀ s x v, motive s → motive (s.bind x v)) (s : Scope) : motive s := by
  obtain ⟨bindings⟩ := s
  induction bindings with
  | nil => exact empty
  | cons b outer ih => exact bind ⟨outer⟩ b.1 b.2 ih

variable {s t : Scope} {x : String} {v : Value}

@[simp] lemma visible_empty : empty.visible = [] := rfl

/-- The pair that is collected last is bound on top of the others. -/
lemma ofList_concat (pairs : List (String × Value)) (b : String × Value) :
    ofList (pairs ++ [b]) = (ofList pairs).bind b.1 b.2 := by
  simp [ofList]

lemma bindings_ofList (pairs : List (String × Value)) :
    (ofList pairs).bindings = pairs.reverse := by
  induction pairs using List.reverseRecOn with
  | nil => rfl
  | append_singleton pairs b ih => rw [ofList_concat, bindings_bind, ih, List.reverse_concat]

/-! ### Names and values -/

/-- A binding is visible exactly if a look-up of its name finds its value. -/
lemma mem_visible_iff : (x, v) ∈ s.visible ↔ s.get? x = some v := by
  induction s using bind_induction with
  | empty => simp
  | bind s y w ih =>
    by_cases hx : x = y
    · subst hx
      simp [eq_comm]
    · simp [hx, ih]

/-- The names that are seen are those that are bound. -/
lemma mem_map_fst_visible_iff : x ∈ s.visible.map Prod.fst ↔ x ∈ s.bindings.map Prod.fst := by
  induction s using bind_induction with
  | empty => simp
  | bind s y w ih =>
    by_cases hx : x = y
    · simp [hx]
    · simpa [hx] using ih

lemma nodup_map_fst_visible (s : Scope) : (s.visible.map Prod.fst).Nodup := by
  induction s using bind_induction with
  | empty => exact List.nodup_nil
  | bind s x v ih =>
    rw [visible_bind, List.map_cons, List.nodup_cons]
    exact ⟨by simp, ih.sublist (List.filter_sublist.map _)⟩

lemma not_mem_map_fst_visible_iff : x ∉ s.visible.map Prod.fst ↔ s.get? x = none := by
  simp only [Option.eq_none_iff_forall_ne_some, ne_eq, ← mem_visible_iff, List.mem_map,
    Prod.exists, exists_and_right, exists_eq_right, not_exists]

/-! ### The order of binding -/

/-- How many bindings were made after the last one of `x`. -/
def age (s : Scope) (x : String) : Nat := (s.bindings.map Prod.fst).idxOf x

@[simp] lemma age_bind (s : Scope) (x y : String) (v : Value) :
    (s.bind x v).age y = if y = x then 0 else s.age y + 1 := by
  by_cases h : y = x
  · simp [age, h]
  · simp [age, h, List.idxOf_cons_ne _ (Ne.symm h)]

lemma pairwise_age_visible (s : Scope) :
    s.visible.Pairwise fun b c => s.age b.1 < s.age c.1 := by
  induction s using bind_induction with
  | empty => exact List.Pairwise.nil
  | bind s x v ih =>
    have houter : ∀ b ∈ s.visible.filter (·.1 != x), (s.bind x v).age b.1 = s.age b.1 + 1 := by
      intro b hb
      have hne : b.1 ≠ x := by simpa using (List.mem_filter.1 hb).2
      rw [age_bind, if_neg hne]
    rw [visible_bind, List.pairwise_cons]
    refine ⟨fun b hb => ?_, (ih.filter _).imp_of_mem fun hb hc hlt => ?_⟩
    · rw [houter b hb, age_bind, if_pos rfl]
      exact Nat.succ_pos _
    · rw [houter _ hb, houter _ hc]
      exact Nat.succ_lt_succ hlt

/-! ### From the inner end outwards -/

/-- Keeps a binding unless its name has been met before. -/
def keepNew (kept : List (String × Value)) (b : String × Value) : List (String × Value) :=
  if b.1 ∈ kept.map Prod.fst then kept else kept ++ [b]

lemma foldl_keepNew_append (s : Scope) (kept : List (String × Value)) :
    s.bindings.foldl keepNew kept = kept ++ s.visible.filter (·.1 ∉ kept.map Prod.fst) := by
  induction s using bind_induction generalizing kept with
  | empty => simp
  | bind s x v ih =>
    rw [bindings_bind, List.foldl_cons, ih, visible_bind, List.filter_cons, List.filter_filter]
    by_cases hx : x ∈ kept.map Prod.fst
    · -- the new binding is passed over, and so is every other one of its name
      rw [keepNew, if_pos hx, if_neg (by simpa using hx)]
      refine congrArg (kept ++ ·) (List.filter_congr fun b _ => ?_)
      have hname : b.1 ∉ kept.map Prod.fst → b.1 ≠ x := fun hb hbx => hb (hbx ▸ hx)
      rw [Bool.eq_iff_iff, Bool.and_eq_true, decide_eq_true_eq, bne_iff_ne]
      exact ⟨fun hb => ⟨hb, hname hb⟩, And.left⟩
    · rw [keepNew, if_neg hx, if_pos (by simpa using hx), List.append_assoc]
      refine congrArg (kept ++ (x, v) :: ·) (List.filter_congr fun b _ => ?_)
      rw [Bool.eq_iff_iff, Bool.and_eq_true, decide_eq_true_eq, decide_eq_true_eq, bne_iff_ne,
        List.map_append, List.mem_append, not_or, List.map_singleton, List.mem_singleton]

/-- Going through the bindings from the inner end and passing over names that were met before
leaves the visible ones. -/
lemma foldl_keepNew (s : Scope) : s.bindings.foldl keepNew [] = s.visible := by
  rw [foldl_keepNew_append]
  simp

/-! ### Collecting what is visible -/

/-- Where no name is bound twice, nothing is hidden. -/
lemma visible_eq_bindings (h : (s.bindings.map Prod.fst).Nodup) : s.visible = s.bindings := by
  induction s using bind_induction with
  | empty => rfl
  | bind s x v ih =>
    rw [bindings_bind, List.map_cons, List.nodup_cons] at h
    have hkeep : ∀ b ∈ s.bindings, (b.1 != x) = true := fun b hb =>
      bne_iff_ne.2 fun hbx => h.1 (List.mem_map.2 ⟨b, hb, hbx⟩)
    rw [visible_bind, ih h.2, bindings_bind, List.filter_eq_self.2 hkeep]

/-- Scopes of which the same can be seen have the same look-ups. -/
lemma get?_eq_of_visible_eq (h : s.visible = t.visible) : s.get? = t.get? := by
  funext x
  ext v
  rw [← mem_visible_iff, ← mem_visible_iff, h]

lemma visible_ofList_visible (s : Scope) : (ofList s.visible.reverse).visible = s.visible := by
  have hbindings : (ofList s.visible.reverse).bindings = s.visible := by
    rw [bindings_ofList, List.reverse_reverse]
  have hnodup := s.nodup_map_fst_visible
  rw [← hbindings] at hnodup
  exact (visible_eq_bindings hnodup).trans hbindings

/-- **The visible bindings are a normal form.** Of any scope, whatever binds and collections it was
built by, each bound name is visible once and no other name is; its value there is the one that a
look-up finds, and a look-up finds nothing exactly if the name is not visible. The most recent
binding comes first, as in a pass from the inner end that skips the names it has met. Collecting the
visible bindings, the outermost first, gives a scope with the same look-ups and the same visible
bindings. -/
theorem visible_normal_form (s : Scope) :
    (∀ x, (s.visible.map Prod.fst).count x = if x ∈ s.bindings.map Prod.fst then 1 else 0) ∧
    (∀ x v, (x, v) ∈ s.visible ↔ s.get? x = some v) ∧
    (∀ x, x ∉ s.visible.map Prod.fst ↔ s.get? x = none) ∧
    (s.visible.Pairwise fun b c => s.age b.1 < s.age c.1) ∧
    s.bindings.foldl keepNew [] = s.visible ∧
    (ofList s.visible.reverse).get? = s.get? ∧
    (ofList s.visible.reverse).lookup = s.lookup ∧
    (ofList s.visible.reverse).visible = s.visible := by
  have hget : (ofList s.visible.reverse).get? = s.get? :=
    get?_eq_of_visible_eq s.visible_ofList_visible
  refine ⟨fun x => ?_, fun x v => mem_visible_iff, fun x => not_mem_map_fst_visible_iff,
    s.pairwise_age_visible, s.foldl_keepNew, hget, ?_, s.visible_ofList_visible⟩
  · rw [s.nodup_map_fst_visible.count, if_congr mem_map_fst_visible_iff rfl rfl]
  · funext x
    rw [lookup, lookup, hget]

end Staged.Scope
