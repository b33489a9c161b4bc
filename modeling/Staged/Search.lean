/-!
Search through a finite set of points from a stack. The point on top of the stack is taken off, and
those of its successors that no one has seen yet are put on. The result lists the points in the
order in which they are taken off.
-/

namespace Staged

variable {α : Type} [DecidableEq α]

theorem nodup_eraseDups (l : List α) : l.eraseDups.Nodup := by
  match l with
  | [] => simp
  | a :: l =>
    rw [List.eraseDups_cons]
    refine List.nodup_cons.2 ⟨by simp, ?_⟩
    exact nodup_eraseDups _
  termination_by l.length
  decreasing_by
    have := List.length_filter_le (fun b => !b == a) l
    simp only [List.length_cons]
    omega

theorem length_add_length_filter_le {l u : List α} (nodup : l.Nodup) (sub : l ⊆ u) :
    l.length + (u.filter (· ∉ l)).length ≤ u.length := by
  induction l generalizing u with
  | nil => simpa only [List.length_nil, Nat.zero_add] using List.length_filter_le _ u
  | cons a l ih =>
    obtain ⟨ha, hl⟩ := List.nodup_cons.1 nodup
    have hsub : l ⊆ u.filter (· ≠ a) := fun x hx => by
      simp only [List.mem_filter, decide_eq_true_eq]
      exact ⟨sub (List.mem_cons_of_mem a hx), fun h => ha (h ▸ hx)⟩
    have hlt : (u.filter (· ≠ a)).length < u.length :=
      List.length_filter_lt_length_iff_exists.2 ⟨a, sub List.mem_cons_self, by simp⟩
    have := ih hl hsub
    have heq : (u.filter (· ≠ a)).filter (· ∉ l) = u.filter (· ∉ a :: l) := by
      simp [List.filter_filter, Bool.and_comm]
    rw [heq] at this
    simp only [List.length_cons]
    omega

/-- The unseen ones among `ps`, each once. -/
def fresh (unseen ps : List α) : List α := ps.eraseDups.filter (· ∈ unseen)

@[simp] theorem mem_fresh {unseen ps : List α} {p : α} :
    p ∈ fresh unseen ps ↔ p ∈ ps ∧ p ∈ unseen := by
  simp [fresh]

theorem nodup_fresh (unseen ps : List α) : (fresh unseen ps).Nodup :=
  (nodup_eraseDups ps).filter _

/-- What stays unseen when `ps` are seen. -/
def without (unseen ps : List α) : List α := unseen.filter (· ∉ ps)

@[simp] theorem mem_without {unseen ps : List α} {p : α} :
    p ∈ without unseen ps ↔ p ∈ unseen ∧ p ∉ ps := by
  simp [without]

theorem length_fresh_add_length_without (unseen ps : List α) :
    (fresh unseen ps).length + (without unseen ps).length ≤ unseen.length := by
  have h := length_add_length_filter_le (nodup_fresh unseen ps) fun _ hx => (mem_fresh.1 hx).2
  rwa [List.filter_congr (q := (· ∉ ps)) fun x hx => by simp [hx]] at h

/-- Of the successors of a point, the last one that is put on the stack is taken off first. -/
def search (next : α → List α) : (unseen stack : List α) → List α
  | _, [] => []
  | unseen, p :: stack =>
    p :: search next (without unseen (next p)) ((fresh unseen (next p)).reverse ++ stack)
  termination_by unseen stack => unseen.length + stack.length
  decreasing_by
    have := length_fresh_add_length_without unseen (next p)
    simp only [List.length_append, List.length_reverse, List.length_cons]
    omega

/-- Every point that is taken off was on the stack or follows another one. -/
theorem mem_search {next : α → List α} {unseen stack : List α} {p : α}
    (h : p ∈ search next unseen stack) :
    p ∈ stack ∨ ∃ q ∈ search next unseen stack, p ∈ next q := by
  fun_induction search next unseen stack with
  | case1 => simp at h
  | case2 unseen q stack ih =>
    rcases List.mem_cons.1 h with rfl | h
    · exact .inl List.mem_cons_self
    · rcases ih h with h | ⟨r, hr, hp⟩
      · rcases List.mem_append.1 h with h | h
        · exact .inr ⟨q, List.mem_cons_self, (mem_fresh.1 (List.mem_reverse.1 h)).1⟩
        · exact .inl (List.mem_cons_of_mem q h)
      · exact .inr ⟨r, List.mem_cons_of_mem q hr, hp⟩

end Staged
