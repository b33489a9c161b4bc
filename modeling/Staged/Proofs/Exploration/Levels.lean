import Staged.Exploration
import Staged.Proofs.Result
import Mathlib.Data.List.Basic

/-!
The states that an exploration expands. Level `k` holds the states after `k` steps, in the order in
which they come up. One level after the other makes a sequence, and an exploration expands an
initial part of it: as many levels as there may be steps, as far as there may be states.
-/

namespace Staged.FlowGraph

variable {g : FlowGraph}

/-- The states one step after `s`; there are none where the step fails. -/
def following (g : FlowGraph) (s : State) : List State := (g.step s).toOption.getD []

/-- The states `k` steps after those of a frontier. -/
def level (g : FlowGraph) (frontier : List State) : (k : Nat) → List State
  | 0 => frontier
  | k + 1 => (g.level frontier k).flatMap g.following

/-- The first `n` levels, one after the other. -/
def levels (g : FlowGraph) (frontier : List State) (n : Nat) : List State :=
  (List.range n).flatMap (g.level frontier)

/-- No step is taken from here: the point returns, or is outside the model or the graph. -/
def isTerminal (g : FlowGraph) (s : State) : Bool := (g.get? s.point).all Point.isTerminal

/-- The outcome of a path that ends in a state. -/
inductive EndsWith (g : FlowGraph) (s : State) : Outcome → Prop where
  | returned {results values} (hp : g.get? s.point = some (.ret results))
      (hv : Expr.evalArgs s.scope.lookup results = .ok values) :
      EndsWith g s (.returned s.point values)
  | unsupported {stmt} (hp : g.get? s.point = some (.unsupported stmt)) :
      EndsWith g s (.stopped s.point)
  | outside (hp : g.get? s.point = none) : EndsWith g s (.stopped s.point)

/-! ### One state -/

lemma mem_following_iff {a b : State} : b ∈ g.following a ↔ ∃ point next,
    g.get? a.point = some point ∧ point.step a.scope = .ok next ∧ b ∈ next := by
  rcases hpoint : g.get? a.point with _ | point
  · simp [following, step, hpoint, Except.toOption]
  · rcases hstep : point.step a.scope with err | next <;>
      simp [following, step, hpoint, hstep, Except.toOption]

/-- Expanding a state ends its path or takes a step. -/
lemma expand_eq_ok {s : State} {x : Expansion} (h : g.expand s = .ok x) :
    x.states = g.following s ∧
      List.Forall₂ g.EndsWith ([s].filter g.isTerminal) x.outcome?.toList := by
  rcases hp : g.get? s.point with _ | point
  · simp only [expand, hp, Except.ok.injEq] at h
    subst h
    refine ⟨by simp [following, step, hp, Except.toOption, Expansion.states], ?_⟩
    simpa [isTerminal, hp, Expansion.outcome?] using EndsWith.outside hp
  cases point with
  | ret results =>
    simp only [expand, hp, bind_eq_ok, pure_eq_ok, Except.ok.injEq] at h
    obtain ⟨values, hv, rfl⟩ := h
    refine ⟨by simp [following, step, Point.step, hp, Except.toOption, Expansion.states], ?_⟩
    simpa [isTerminal, hp, Point.isTerminal, Expansion.outcome?] using EndsWith.returned hp hv
  | unsupported stmt =>
    simp only [expand, hp, Except.ok.injEq] at h
    subst h
    refine ⟨by simp [following, step, Point.step, hp, Except.toOption, Expansion.states], ?_⟩
    simpa [isTerminal, hp, Point.isTerminal, Expansion.outcome?] using EndsWith.unsupported hp
  | evaluate | assign | branch =>
    simp only [expand, hp, bind_eq_ok, pure_eq_ok, Except.ok.injEq] at h
    obtain ⟨next, hnext, rfl⟩ := h
    refine ⟨by simp [following, step, hp, hnext, Except.toOption, Expansion.states], ?_⟩
    simp [isTerminal, hp, Point.isTerminal, Expansion.outcome?]

lemma mapM_expand_eq_ok {states : List State} {xs : List Expansion}
    (h : states.mapM g.expand = .ok xs) :
    xs.flatMap Expansion.states = states.flatMap g.following ∧
      List.Forall₂ g.EndsWith (states.filter g.isTerminal) (xs.filterMap Expansion.outcome?) := by
  induction mapM_eq_ok.1 h with
  | nil => exact ⟨rfl, .nil⟩
  | @cons s x states xs hx hxs ih =>
    obtain ⟨hstates, hout⟩ := expand_eq_ok hx
    obtain ⟨hstates', hout'⟩ := ih (mapM_eq_ok.2 hxs)
    have hcons : (x :: xs).filterMap Expansion.outcome? =
        x.outcome?.toList ++ xs.filterMap Expansion.outcome? := by
      rw [List.filterMap_cons]
      cases x.outcome? <;> rfl
    refine ⟨by simp [hstates, hstates'], ?_⟩
    rw [hcons, ← List.singleton_append, List.filter_append]
    exact List.rel_append hout hout'

/-! ### Levels -/

lemma level_succ (frontier : List State) (k : Nat) :
    g.level frontier (k + 1) = g.level (frontier.flatMap g.following) k := by
  induction k with
  | zero => rfl
  | succ k ih => rw [level, ih, level]

@[simp] lemma levels_zero (frontier : List State) : g.levels frontier 0 = [] := rfl

lemma levels_succ (frontier : List State) (n : Nat) :
    g.levels frontier (n + 1) = frontier ++ g.levels (frontier.flatMap g.following) n := by
  have hlevel : (fun k => g.level frontier (k + 1)) = g.level (frontier.flatMap g.following) :=
    funext (level_succ frontier)
  rw [levels, List.range_succ_eq_map, List.flatMap_cons, List.flatMap_map, levels, hlevel]
  rfl

@[simp] lemma levels_nil (n : Nat) : g.levels [] n = [] := by
  induction n with
  | zero => rfl
  | succ n ih => simp [levels_succ, ih]

lemma length_levels_mono (frontier : List State) {m n : Nat} (h : m ≤ n) :
    (g.levels frontier m).length ≤ (g.levels frontier n).length := by
  obtain ⟨k, rfl⟩ := Nat.exists_eq_add_of_le h
  rw [levels, levels, List.range_add, List.flatMap_append, List.length_append]
  exact Nat.le_add_right _ _

/-- Once a level is empty, so are those after it. -/
lemma levels_eq_of_level_eq_nil {frontier : List State} {n : Nat}
    (h : g.level frontier n = []) (k : Nat) : g.levels frontier (n + k) = g.levels frontier n := by
  have hempty (j : Nat) : g.level frontier (n + j) = [] := by
    induction j with
    | zero => exact h
    | succ j ih => rw [← Nat.add_assoc, level, ih, List.flatMap_nil]
  rw [levels, levels, List.range_add, List.flatMap_append, List.flatMap_map]
  simp [hempty]

/-- Whether some states are left after `states` of them within the first `n` levels is seen at the
next level. -/
lemma lt_length_levels_iff {frontier : List State} {n states : Nat} :
    (∃ k, min states (g.levels frontier n).length < (g.levels frontier k).length) ↔
      min states (g.levels frontier n).length < (g.levels frontier (n + 1)).length := by
  refine ⟨?_, fun h => ⟨_, h⟩⟩
  rintro ⟨k, hk⟩
  rcases hlevel : g.level frontier n with _ | ⟨s, rest⟩
  · have hle : (g.levels frontier k).length ≤ (g.levels frontier (n + 1)).length := by
      rw [levels_eq_of_level_eq_nil hlevel 1, ← levels_eq_of_level_eq_nil hlevel k]
      exact length_levels_mono frontier (Nat.le_add_left k n)
    exact Nat.lt_of_lt_of_le hk hle
  · have hlast : g.levels frontier (n + 1) = g.levels frontier n ++ s :: rest := by
      simp [levels, List.range_succ, hlevel]
    rw [hlast, List.length_append, List.length_cons]
    omega

/-! ### Exploring -/

/-- What an exploration finds when it expands the first states of the levels to come. -/
def report (g : FlowGraph) (length states : Nat) (frontier : List State) (u : Exploration)
    (xs : List Expansion) : Exploration where
  outcomes := u.outcomes ++ xs.filterMap Expansion.outcome?
  visited := u.visited + min states (g.levels frontier length).length
  truncated :=
    min states (g.levels frontier length).length < (g.levels frontier (length + 1)).length

lemma report_nil (length states : Nat) {u : Exploration} (hu : u.truncated = false) :
    g.report length states [] u [] = u := by
  cases u
  simp_all [report]

/-- What is found from the next frontier on is found from this one. -/
lemma report_succ {length states : Nat} {s : State} {rest : List State} {u : Exploration}
    {xs ys : List Expansion} (fits : rest.length < states) :
    g.report length (states - (rest.length + 1)) ((s :: rest).flatMap g.following)
        { outcomes := u.outcomes ++ xs.filterMap Expansion.outcome?
          visited := u.visited + (rest.length + 1) } ys =
      g.report (length + 1) states (s :: rest) u (xs ++ ys) := by
  simp only [report, levels_succ (s :: rest), List.length_append, List.length_cons,
    List.filterMap_append, Exploration.mk.injEq, decide_eq_decide]
  exact ⟨Array.ext' (by simp), by omega, by omega⟩

/-- **Frontiers.** From a frontier on, an exploration expands the states of the levels to come, as
far as the bounds reach. -/
theorem exploreFrom_eq (length states : Nat) (frontier : List State) (u : Exploration)
    (hu : u.truncated = false) :
    g.exploreFrom length states frontier u =
      (((g.levels frontier length).take states).mapM g.expand).map
        (g.report length states frontier u) := by
  induction length generalizing states frontier u with
  | zero =>
    cases frontier with
    | nil => simp [exploreFrom, Except.map, report_nil 0 states hu]
    | cons s rest => simp [exploreFrom, Except.map, report, levels_succ]
  | succ length ih =>
    cases frontier with
    | nil => simp [exploreFrom, Except.map, report_nil (length + 1) states hu]
    | cons s rest =>
      rw [exploreFrom]
      by_cases fits : rest.length < states
      · have hwhole : (s :: rest).take states = s :: rest := List.take_of_length_le fits
        have htake : (g.levels (s :: rest) (length + 1)).take states = (s :: rest) ++
            (g.levels ((s :: rest).flatMap g.following) length).take (states - (rest.length + 1)) := by
          rw [levels_succ, List.take_append, hwhole, List.length_cons]
        rw [htake, List.mapM_append]
        simp only [hwhole]
        rcases hxs : (s :: rest).mapM g.expand with err | xs
        · rfl
        · simp only [if_neg (Nat.not_le_of_lt fits), ok_bind, List.length_cons]
          rw [(mapM_expand_eq_ok hxs).1, ih _ _ _ rfl]
          rcases ((g.levels ((s :: rest).flatMap g.following) length).take
            (states - (rest.length + 1))).mapM g.expand with err | ys
          · rfl
          · exact congrArg Except.ok (report_succ fits)
      · -- the bound on the states is met within this frontier
        have hle : states ≤ rest.length := Nat.le_of_not_lt fits
        have htake : (g.levels (s :: rest) (length + 1)).take states = (s :: rest).take states := by
          rw [levels_succ, List.take_append_of_le_length (Nat.le_succ_of_le hle)]
        rw [htake]
        rcases ((s :: rest).take states).mapM g.expand with err | xs
        · rfl
        · simp only [if_pos hle, Except.map, report, levels_succ (s :: rest), List.length_append,
            List.length_take, List.length_cons, Except.ok.injEq, Exploration.mk.injEq, true_and]
          exact ⟨by omega, by simp; omega⟩

/-- **Breadth first.** Put the states after no step, one step, two steps and so on one after the
other, and let `n` be the number of states allowed, or the number of those before the last step
allowed if this is smaller. The exploration fails if one of the first `n` states cannot be expanded,
with the error of the first one that cannot. Otherwise it has visited these states, its outcomes are
those of the terminal states among them, and it is truncated if there is a state after them. -/
theorem explore_eq_levels (g : FlowGraph) (limits : Limits) (start : State) :
    let n := min limits.maxStates (g.levels [start] limits.maxPathLength).length
    let expanded := (g.levels [start] limits.maxPathLength).take n
    (∀ e, g.explore limits start = .error e ↔ ∃ before s after,
      expanded = before ++ s :: after ∧ (∀ t ∈ before, ∃ x, g.expand t = .ok x) ∧
        g.expand s = .error e) ∧
    ∀ result, g.explore limits start = .ok result →
      result.visited = n ∧
      List.Forall₂ g.EndsWith (expanded.filter g.isTerminal) result.outcomes.toList ∧
      (result.truncated ↔ ∃ k, n < (g.levels [start] k).length) := by
  intro n expanded
  have hexpanded : expanded = (g.levels [start] limits.maxPathLength).take limits.maxStates := by
    rcases Nat.le_total limits.maxStates (g.levels [start] limits.maxPathLength).length with h | h
    · simp only [expanded, n, Nat.min_eq_left h]
    · simp only [expanded, n, Nat.min_eq_right h, List.take_length, List.take_of_length_le h]
  rw [explore, exploreFrom_eq _ _ _ _ rfl, ← hexpanded]
  refine ⟨fun e => ?_, fun result h => ?_⟩
  · rw [← mapM_eq_error]
    cases expanded.mapM g.expand <;> simp [Except.map]
  · rcases hxs : expanded.mapM g.expand with err | xs
    · simp [hxs, Except.map] at h
    · rw [hxs] at h
      obtain rfl := Except.ok.inj h
      refine ⟨by simp [report, n], ?_, ?_⟩
      · simpa [report] using (mapM_expand_eq_ok hxs).2
      · simp only [report, decide_eq_true_eq, n]
        exact lt_length_levels_iff.symm

end Staged.FlowGraph
