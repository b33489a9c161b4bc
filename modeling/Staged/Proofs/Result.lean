import Mathlib.Data.List.Forall2

/-!
How a computation that may fail goes on: after a result with what follows, after an error with that
error.
-/

namespace Staged

variable {ε α β γ δ : Type}

@[simp] lemma ok_bind (a : α) (f : α → Except ε β) : (Except.ok a >>= f) = f a := rfl

@[simp] lemma error_bind (e : ε) (f : α → Except ε β) : (Except.error e >>= f) = .error e := rfl

@[simp] lemma pure_eq_ok (a : α) : (pure a : Except ε α) = .ok a := rfl

@[simp] lemma bind_ok (x : Except ε α) : (x >>= Except.ok) = x := by cases x <;> rfl

lemma bind_eq_ok {x : Except ε α} {f : α → Except ε β} {b : β} :
    (x >>= f) = .ok b ↔ ∃ a, x = .ok a ∧ f a = .ok b := by
  cases x <;> simp

/-- A list is computed element by element. -/
lemma mapM_eq_ok {f : α → Except ε β} {as : List α} {bs : List β} :
    as.mapM f = .ok bs ↔ List.Forall₂ (fun a b => f a = .ok b) as bs := by
  induction as generalizing bs with
  | nil => simp [eq_comm]
  | cons a as ih =>
    simp only [List.mapM_cons, bind_eq_ok, pure_eq_ok, Except.ok.injEq, ih,
      List.forall₂_cons_left_iff]
    grind

lemma exists_getElem?_of_mapM_eq_ok {f : α → Except ε β} {as : List α} {bs : List β}
    (h : as.mapM f = .ok bs) {i : Nat} {a : α} (ha : as[i]? = some a) :
    ∃ b, bs[i]? = some b ∧ f a = .ok b := by
  have hall := List.forall₂_iff_get.1 (mapM_eq_ok.1 h)
  obtain ⟨hi, rfl⟩ := List.getElem?_eq_some_iff.1 ha
  have hi' : i < bs.length := hall.1 ▸ hi
  exact ⟨bs[i], List.getElem?_eq_getElem hi', hall.2 i hi hi'⟩

/-- The first element that fails decides. -/
lemma mapM_eq_error {f : α → Except ε β} {as : List α} {e : ε} :
    as.mapM f = .error e ↔ ∃ before a after, as = before ++ a :: after ∧
      (∀ b ∈ before, ∃ c, f b = .ok c) ∧ f a = .error e := by
  induction as with
  | nil => simp
  | cons a as ih =>
    rw [List.mapM_cons]
    rcases ha : f a with err | c
    · simp only [error_bind, Except.error.injEq]
      constructor
      · rintro rfl
        exact ⟨[], a, as, rfl, by simp, ha⟩
      · rintro ⟨before, b, after, heq, hok, hb⟩
        cases before with
        | nil =>
          obtain ⟨rfl, rfl⟩ := List.cons.inj heq
          exact Except.error.inj (ha.symm.trans hb)
        | cons c before =>
          obtain ⟨rfl, -⟩ := List.cons.inj heq
          obtain ⟨d, hd⟩ := hok a List.mem_cons_self
          simp [ha] at hd
    · have hmap : (Except.ok c >>= fun c => as.mapM f >>= fun cs => pure (c :: cs)) = .error e ↔
          as.mapM f = .error e := by
        cases as.mapM f <;> simp
      rw [hmap, ih]
      constructor
      · rintro ⟨before, b, after, rfl, hok, hb⟩
        exact ⟨a :: before, b, after, rfl, List.forall_mem_cons.2 ⟨⟨c, ha⟩, hok⟩, hb⟩
      · rintro ⟨before, b, after, heq, hok, hb⟩
        cases before with
        | nil =>
          obtain ⟨rfl, -⟩ := List.cons.inj heq
          simp [ha] at hb
        | cons d before =>
          obtain ⟨rfl, rfl⟩ := List.cons.inj heq
          exact ⟨before, b, after, rfl, (List.forall_mem_cons.1 hok).2, hb⟩

/-- The first element that fails decides, in the state that the elements before it have left. -/
lemma foldlM_eq_error {f : β → α → Except ε β} {as : List α} {b : β} {e : ε} :
    as.foldlM f b = .error e ↔ ∃ before a after c, as = before ++ a :: after ∧
      before.foldlM f b = .ok c ∧ f c a = .error e := by
  constructor
  · intro h
    induction as generalizing b with
    | nil => simp at h
    | cons a as ih =>
      rw [List.foldlM_cons] at h
      rcases ha : f b a with err | c
      · rw [ha, error_bind] at h
        exact ⟨[], a, as, b, rfl, rfl, h ▸ ha⟩
      · rw [ha, ok_bind] at h
        obtain ⟨before, a', after, d, rfl, hbefore, hfail⟩ := ih h
        refine ⟨a :: before, a', after, d, rfl, ?_, hfail⟩
        rw [List.foldlM_cons, ha, ok_bind, hbefore]
  · rintro ⟨before, a, after, c, rfl, hbefore, hfail⟩
    rw [List.foldlM_append, hbefore, ok_bind, List.foldlM_cons, hfail, error_bind]

/-- The error of a computation that fails. -/
def failure? : Except ε α → Option ε
  | .ok _ => none
  | .error e => some e

@[simp] lemma failure?_ok (a : α) : failure? (.ok a : Except ε α) = none := rfl

@[simp] lemma failure?_error (e : ε) : failure? (.error e : Except ε α) = some e := rfl

/-! ### Two computations side by side -/

/-- Both fail with the same error, or both go on, with results that belong together. -/
inductive SameResult (R : α → β → Prop) : Except ε α → Except ε β → Prop where
  | ok {a b} (h : R a b) : SameResult R (.ok a) (.ok b)
  | error (e) : SameResult R (.error e) (.error e)

namespace SameResult

variable {R : α → β → Prop} {S : γ → δ → Prop}

lemma bind {x : Except ε α} {y : Except ε β} {k : α → Except ε γ} {l : β → Except ε δ}
    (h : SameResult R x y) (hkl : ∀ a b, R a b → SameResult S (k a) (l b)) :
    SameResult S (x >>= k) (y >>= l) := by
  cases h with
  | ok h => exact hkl _ _ h
  | error e => exact .error e

lemma map (k : α → β) (x : Except ε α) : SameResult (fun a b => b = k a) x (k <$> x) := by
  cases x with
  | ok a => exact .ok rfl
  | error e => exact .error e

lemma mapM {k : α → Except ε γ} {l : β → Except ε δ} {as : List α} {bs : List β}
    (h : List.Forall₂ R as bs) (hkl : ∀ a b, R a b → SameResult S (k a) (l b)) :
    SameResult (List.Forall₂ S) (as.mapM k) (bs.mapM l) := by
  induction h with
  | nil => exact .ok .nil
  | cons hab _ ih =>
    rw [List.mapM_cons, List.mapM_cons]
    exact (hkl _ _ hab).bind fun c d hcd => ih.bind fun cs ds hcds => .ok (.cons hcd hcds)

end SameResult

end Staged
