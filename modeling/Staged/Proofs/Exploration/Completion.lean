import Staged.Proofs.BindingTime.Loops
import Staged.Proofs.Exploration.Levels
import Staged.Proofs.Graph.Closed
import Staged.Proofs.Step.Resumption

/-!
Bodies without loops and without jumps to labels. Every edge of their graph leads down, so a run
comes to no point twice, and an exploration runs out of states before it runs out of steps.
-/

namespace Staged

namespace FlowGraph

/-- Every edge leads to a point with a smaller number. -/
def LeadsDown (g : FlowGraph) : Prop := ∀ p, ∀ q ∈ g.successors p, q < p

variable {g : FlowGraph} {a b start : State}

lemma LeadsDown.lt (hg : g.LeadsDown) (h : b ∈ g.following a) : b.point < a.point := by
  obtain ⟨point, next, hpoint, hstep, hb⟩ := mem_following_iff.1 h
  refine hg a.point b.point ?_
  rw [successors, hpoint]
  exact (Point.cases_of_mem_step hstep hb).1

/-- Along a run the numbers of the points fall. -/
lemma LeadsDown.pairwise (hg : g.LeadsDown) {run : List State}
    (h : run.IsChain fun a b => b ∈ g.following a) :
    run.Pairwise fun a b => b.point < a.point := by
  have : IsTrans State (fun a b => b.point < a.point) :=
    ⟨fun _ _ _ hab hbc => Nat.lt_trans hbc hab⟩
  exact List.isChain_iff_pairwise.1 (h.imp fun _ _ => hg.lt)

lemma LeadsDown.nodup (hg : g.LeadsDown) {run : List State}
    (h : run.IsChain fun a b => b ∈ g.following a) : (run.map State.point).Nodup :=
  List.pairwise_map.2 ((hg.pairwise h).imp Nat.ne_of_gt)

lemma LeadsDown.length_le (hg : g.LeadsDown) {run : List State}
    (h : (start :: run).IsChain fun a b => b ∈ g.following a) :
    (start :: run).length ≤ start.point + 1 := by
  induction run generalizing start with
  | nil => simp
  | cons next run ih =>
    calc (start :: next :: run).length
        = (next :: run).length + 1 := List.length_cons
      _ ≤ next.point + 1 + 1 := Nat.succ_le_succ (ih h.of_cons)
      _ ≤ start.point + 1 := Nat.succ_le_succ (hg.lt h.rel)

/-- Each step goes down by one at least. -/
lemma LeadsDown.add_le (hg : g.LeadsDown) {k : Nat} (h : a ∈ g.level [start] k) :
    a.point + k ≤ start.point := by
  induction k generalizing a with
  | zero => simp [List.mem_singleton.1 h]
  | succ k ih =>
    obtain ⟨before, hbefore, ha⟩ := List.mem_flatMap.1 h
    calc a.point + (k + 1)
        = a.point + 1 + k := Nat.add_right_comm a.point k 1
      _ ≤ before.point + k := Nat.add_le_add_right (hg.lt ha) k
      _ ≤ start.point := ih hbefore

lemma LeadsDown.level_eq_nil (hg : g.LeadsDown) {k : Nat} (hk : start.point < k) :
    g.level [start] k = [] := by
  refine List.eq_nil_iff_forall_not_mem.2 fun a ha => ?_
  exact Nat.not_le_of_lt hk (Nat.le_of_add_left_le (hg.add_le ha))

/-- Where all levels from the `n`-th on are empty, and `n` steps may be taken, only the bound on the
states can leave some aside. -/
lemma explore_of_level_eq_nil {n : Nat} (hn : g.level [start] n = []) {limits : Limits}
    (hle : n ≤ limits.maxPathLength) {result : Exploration}
    (h : g.explore limits start = .ok result) :
    result.visited = min limits.maxStates (g.levels [start] n).length ∧
      (result.truncated ↔ limits.maxStates < (g.levels [start] n).length) := by
  obtain ⟨hvisited, -, htruncated⟩ := (explore_eq_levels g limits start).2 result h
  have hlevels (k : Nat) (hk : n ≤ k) : g.levels [start] k = g.levels [start] n := by
    obtain ⟨j, rfl⟩ := Nat.exists_eq_add_of_le hk
    exact levels_eq_of_level_eq_nil hn j
  rw [hlevels _ hle] at hvisited htruncated
  refine ⟨hvisited, htruncated.trans ⟨?_, fun hlt => ⟨n, by omega⟩⟩⟩
  rintro ⟨k, hk⟩
  have hall : (g.levels [start] k).length ≤ (g.levels [start] n).length := by
    rw [← hlevels (n + k) (Nat.le_add_right n k)]
    exact length_levels_mono [start] (Nat.le_add_left k n)
  omega

end FlowGraph

namespace Stmt

mutual

/-- There is no loop in the statement. -/
@[simp] def loopFree : Stmt → Bool
  | .loop .. => false
  | .block body => loopFreeAll body
  | .ifElse init _ body otherwise =>
    loopFreeOption init && loopFree body && loopFreeOption otherwise
  | .labeled _ body => loopFree body
  | .empty | .expr _ | .assign .. | .count .. | .jump .. | .ret _ | .other _ => true

@[simp] def loopFreeOption : Option Stmt → Bool
  | none => true
  | some s => loopFree s

@[simp] def loopFreeAll : List Stmt → Bool
  | [] => true
  | s :: rest => loopFree s && loopFreeAll rest

end

lemma loopFreeOption_eq (s? : Option Stmt) : loopFreeOption s? = loopFree (s?.getD .empty) := by
  cases s? <;> simp

end Stmt

namespace Site

variable {c part : Site} {p : PointId}

lemma loopFree_of_mem_parts (hc : c.stmt.loopFree) (h : part ∈ c.parts) : part.stmt.loopFree := by
  obtain ⟨loops, label, s, next, d⟩ := c
  cases s with
  | block body =>
    rcases body with _ | ⟨s, rest⟩
    · simp [parts] at h
    · simp only [Stmt.loopFree, Stmt.loopFreeAll, Bool.and_eq_true] at hc
      rcases List.mem_pair.1 h with rfl | rfl
      · simpa using hc.2
      · exact hc.1
  | ifElse init test body otherwise =>
    simp only [Stmt.loopFree, Stmt.loopFreeOption_eq, Bool.and_eq_true] at hc
    simp only [parts, List.mem_cons, List.not_mem_nil, or_false] at h
    rcases h with rfl | rfl | rfl
    · exact hc.1.2
    · exact hc.2
    · exact hc.1.1
  | loop init test post body => simp at hc
  | labeled label body =>
    obtain rfl := List.mem_singleton.1 h
    simpa using hc
  | empty | expr | assign | count | jump | ret | other => simp [parts] at h

lemma not_testsAt_of_loopFree (hc : c.stmt.loopFree) : ¬ c.TestsAt p := by
  rintro ⟨part, hpart, ⟨init, test, post, body, hloop⟩, -⟩
  have hfree : part.stmt.loopFree := by
    clear hloop
    induction hpart with
    | refl => exact hc
    | tail _ hparts ih => exact loopFree_of_mem_parts ih hparts
  simp [hloop] at hfree

end Site

namespace Stmt

variable {body : Stmt}

lemma leadsDown_graph (hloops : body.loopFree) (hgotos : body.gotos = []) :
    body.graph.2.LeadsDown := fun _ _ hq =>
  (lt_or_testsAt_of_mem_successors hgotos (fun _ _ => FlowGraph.isTerminal_of_get?_exit)
    (by decide) hq).resolve_right (Site.not_testsAt_of_loopFree hloops)

lemma entry_lt_size_graph (body : Stmt) : body.graph.1 < body.graph.2.size :=
  (analyze_closed body .exit FlowGraph.closed_exit 0 (by decide)).2.1

/-- **Without loops there is an end.** Take a body without loops and without jumps to labels, and
any values of its free names. A run from its entry comes to no point twice, so it has at most as
many states as the graph has points. An exploration that may take as many steps as there are points
visits all states that there are if it may visit that many, and it is truncated just when it may
not. -/
theorem explore_loopFree (body : Stmt) (hloops : body.loopFree) (hgotos : body.gotos = [])
    (scope : Scope) :
    let g := body.graph.2
    let start : State := ⟨body.graph.1, scope⟩
    let total := (g.levels [start] g.size).length
    (∀ run, (start :: run).IsChain (fun a b => b ∈ g.following a) →
      ((start :: run).map State.point).Nodup ∧ (start :: run).length ≤ g.size) ∧
    (∀ n, (g.levels [start] n).length ≤ total) ∧
    ∀ limits result, g.size ≤ limits.maxPathLength → g.explore limits start = .ok result →
      result.visited = min limits.maxStates total ∧
        (result.truncated ↔ limits.maxStates < total) := by
  intro g start total
  have hg : g.LeadsDown := leadsDown_graph hloops hgotos
  have hentry : start.point < g.size := entry_lt_size_graph body
  have hnil : g.level [start] g.size = [] := hg.level_eq_nil hentry
  refine ⟨fun run hrun => ⟨hg.nodup hrun, ?_⟩, fun n => ?_, fun limits result hle h => ?_⟩
  · exact Nat.le_trans (hg.length_le hrun) hentry
  · calc (g.levels [start] n).length
        ≤ (g.levels [start] (g.size + n)).length :=
          FlowGraph.length_levels_mono [start] (Nat.le_add_left n g.size)
      _ = total := by rw [FlowGraph.levels_eq_of_level_eq_nil hnil]
  · exact FlowGraph.explore_of_level_eq_nil hnil hle h

/-- The graph of `if p { x = 1 }; return x` has four points. While `p` is open there are four
states, after no step, one step and two steps. Four states are enough, and three are not. -/
theorem explore_loopFree_open :
    let body : Stmt := .block [.ifElse none (.name "p")
      (.assign [.name "x"] [.lit ⟨.int, "1"⟩] false none) none, .ret [.name "x"]]
    let g := body.graph.2
    let start : State := ⟨body.graph.1, {}⟩
    body.loopFree ∧ body.gotos = [] ∧ g.size = 4 ∧ (g.levels [start] g.size).length = 4 ∧
      (∃ result, g.explore ⟨4, 4, false⟩ start = .ok result ∧ result.truncated = false) ∧
      ∃ result, g.explore ⟨3, 4, false⟩ start = .ok result ∧ result.truncated = true := by
  intro body g start
  have hloops : body.loopFree := by decide
  have hgotos : body.gotos = [] := by decide
  have hsize : g.size = 4 := by decide +kernel
  have htotal : (g.levels [start] g.size).length = 4 := by decide +kernel
  obtain ⟨-, -, hbounds⟩ := explore_loopFree body hloops hgotos {}
  have hok : ∀ n ∈ [3, 4], ∃ result, g.explore ⟨n, 4, false⟩ start = .ok result := by
    have hisOk : ∀ n ∈ [3, 4], (g.explore ⟨n, 4, false⟩ start).isOk := by decide +kernel
    intro n hn
    rcases hresult : g.explore ⟨n, 4, false⟩ start with err | result
    · simpa [hresult, Except.isOk, Except.toBool] using hisOk n hn
    · exact ⟨result, rfl⟩
  obtain ⟨all, hall⟩ := hok 4 (by decide)
  obtain ⟨cut, hcut⟩ := hok 3 (by decide)
  have hfits := (hbounds ⟨4, 4, false⟩ all (Nat.le_of_eq hsize) hall).2
  have hleaves := (hbounds ⟨3, 4, false⟩ cut (Nat.le_of_eq hsize) hcut).2
  rw [htotal] at hfits hleaves
  exact ⟨hloops, hgotos, hsize, htotal, ⟨all, hall, by simpa using hfits⟩,
    cut, hcut, by simpa using hleaves⟩

end Stmt

end Staged
