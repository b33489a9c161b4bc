import Staged.Proofs.Graph.Embedding
import Mathlib.Tactic.Choose

/-!
The runs of a flow graph from a point on, as far as the point that counts as its exit, and the runs
that are left when a statement has completed: they start where the loops around it say.
-/

namespace Staged

namespace Point

/-- The point does an action, and control goes on to another one. -/
inductive Moves : Point → Action → PointId → Prop where
  | evaluate {e next} : Moves (.evaluate e next) (.evaluate e) next
  | assign {targets values define next} :
      Moves (.assign targets values define next) (.assign targets values define) next
  | ifTrue {test ifTrue ifFalse} :
      Moves (.branch test ifTrue ifFalse) (.test test true) ifTrue
  | ifFalse {test ifTrue ifFalse} :
      Moves (.branch test ifTrue ifFalse) (.test test false) ifFalse

/-- The point does an action, and with it the run completes. -/
inductive Ends : Point → Action → Completion → Prop where
  | ret {results} : Ends (.ret results) (.ret results) .returned
  | unsupported {s} : Ends (.unsupported s) (.stop s) .stopped

end Point

namespace FlowGraph

/-- The runs of a graph from a point on, as far as `exit`. -/
inductive Run (g : FlowGraph) (exit : PointId) : PointId → List Action → Completion → Prop where
  | unfinished {p} : Run g exit p [] .unfinished
  | exit : Run g exit exit [] .normal
  | move {p point a q tr c} (hp : g.inner exit p = some point) (ha : point.Moves a q)
      (h : Run g exit q tr c) : Run g exit p (a :: tr) c
  | last {p point a c} (hp : g.inner exit p = some point) (ha : point.Ends a c) :
      Run g exit p [a] c

/-- A run with these actions that never ends. -/
def RunsForever (g : FlowGraph) (exit p : PointId) (t : Nat → Action) : Prop :=
  ∃ q : Nat → PointId, q 0 = p ∧
    ∀ n, ∃ point, g.inner exit (q n) = some point ∧ point.Moves (t n) (q (n + 1))

/-- What a run does at a jump that has no loop to go to. -/
def Strays (jump : Stmt) (tr : List Action) (c : Completion) : Prop :=
  (tr = [] ∧ c = .unfinished) ∨ (tr = [.stop jump] ∧ c = .stopped)

/-- The runs that are left when a statement inside `loops` has completed. -/
inductive After (g : FlowGraph) (exit : PointId) (loops : List Loop) (next : PointId) :
    Completion → List Action → Completion → Prop where
  | unfinished : After g exit loops next .unfinished [] .unfinished
  | normal {tr c} (h : g.Run exit next tr c) : After g exit loops next .normal tr c
  | breakOut {target loop tr c} (hloop : Loop.find? loops target = some loop)
      (h : g.Run exit loop.out tr c) : After g exit loops next (.breakOut target) tr c
  | strayBreak {target tr c} (hloop : Loop.find? loops target = none)
      (h : Strays (.jump .breakOut target) tr c) : After g exit loops next (.breakOut target) tr c
  | continueOn {target loop tr c} (hloop : Loop.find? loops target = some loop)
      (h : g.Run exit loop.next tr c) : After g exit loops next (.continueOn target) tr c
  | strayContinue {target tr c} (hloop : Loop.find? loops target = none)
      (h : Strays (.jump .continueOn target) tr c) :
      After g exit loops next (.continueOn target) tr c
  | returned : After g exit loops next .returned [] .returned
  | stopped : After g exit loops next .stopped [] .stopped

end FlowGraph

namespace Loop

variable {loops : List Loop} {l target : Option String} {head next : PointId}

@[simp] lemma find?_nil : find? [] target = none := by cases target <;> rfl

lemma find?_cons_of_takes (h : Stmt.Takes l target) :
    find? (⟨l, head, next⟩ :: loops) target = some ⟨l, head, next⟩ := by
  rcases h with rfl | rfl
  · rfl
  · cases target <;> simp [find?]

lemma find?_cons_of_not_takes (h : ¬ Stmt.Takes l target) :
    find? (⟨l, head, next⟩ :: loops) target = find? loops target := by
  rw [Stmt.Takes, not_or] at h
  cases target with
  | none => exact absurd rfl h.1
  | some label => simp [find?, beq_eq_false_iff_ne.2 (Ne.symm h.2)]

end Loop

namespace FlowGraph

variable {g : FlowGraph} {exit : PointId} {loops : List Loop} {l : Option String} {s : Stmt}
  {p next : PointId} {tr : List Action} {c e : Completion}

@[simp] lemma inner_exit : g.inner exit exit = none := if_pos rfl

/-- What a completion other than the normal one leads to is settled by the loops around. -/
lemma After.congr {loops' : List Loop} {next' : PointId} (hc : c ≠ .normal)
    (hfind : ∀ target, c = .breakOut target ∨ c = .continueOn target →
      Loop.find? loops target = Loop.find? loops' target)
    (h : g.After exit loops next c tr e) : g.After exit loops' next' c tr e := by
  cases h with
  | normal => exact absurd rfl hc
  | unfinished => exact .unfinished
  | breakOut hloop h => exact .breakOut ((hfind _ (.inl rfl)).symm.trans hloop) h
  | strayBreak hloop h => exact .strayBreak ((hfind _ (.inl rfl)).symm.trans hloop) h
  | continueOn hloop h => exact .continueOn ((hfind _ (.inr rfl)).symm.trans hloop) h
  | strayContinue hloop h => exact .strayContinue ((hfind _ (.inr rfl)).symm.trans hloop) h
  | returned => exact .returned
  | stopped => exact .stopped

lemma After.of_ne_normal {q : PointId} (hc : c ≠ .normal) (h : g.After exit loops q c tr e) :
    g.After exit loops next c tr e :=
  h.congr hc fun _ _ => rfl

lemma After.run (h : g.After exit loops next .normal tr e) : g.Run exit next tr e := by
  cases h
  assumption

section

variable {target : Option String} {loop : Loop}

lemma after_breakOut_iff (hloop : Loop.find? loops target = some loop) :
    g.After exit loops next (.breakOut target) tr e ↔ g.Run exit loop.out tr e := by
  constructor
  · intro h
    cases h with
    | breakOut hloop' h =>
      obtain rfl := Option.some.inj (hloop.symm.trans hloop')
      exact h
    | strayBreak hloop' => simp [hloop] at hloop'
  · exact .breakOut hloop

lemma after_continueOn_iff (hloop : Loop.find? loops target = some loop) :
    g.After exit loops next (.continueOn target) tr e ↔ g.Run exit loop.next tr e := by
  constructor
  · intro h
    cases h with
    | continueOn hloop' h =>
      obtain rfl := Option.some.inj (hloop.symm.trans hloop')
      exact h
    | strayContinue hloop' => simp [hloop] at hloop'
  · exact .continueOn hloop

lemma after_strayBreak_iff (hloop : Loop.find? loops target = none) :
    g.After exit loops next (.breakOut target) tr e ↔ Strays (.jump .breakOut target) tr e := by
  constructor
  · intro h
    cases h with
    | breakOut hloop' => simp [hloop] at hloop'
    | strayBreak _ h => exact h
  · exact .strayBreak hloop

lemma after_strayContinue_iff (hloop : Loop.find? loops target = none) :
    g.After exit loops next (.continueOn target) tr e ↔
      Strays (.jump .continueOn target) tr e := by
  constructor
  · intro h
    cases h with
    | continueOn hloop' => simp [hloop] at hloop'
    | strayContinue _ h => exact h
  · exact .strayContinue hloop

end

/-- A jump that a loop does not take leads to the same place from inside the loop. -/
lemma after_cons_iff {head out again : PointId} (hc : c ≠ .normal)
    (htakes : ∀ target, Stmt.Takes l target → c ≠ .breakOut target ∧ c ≠ .continueOn target) :
    g.After exit (⟨l, head, out⟩ :: loops) again c tr e ↔ g.After exit loops next c tr e := by
  have hfind (target : Option String) (hjump : c = .breakOut target ∨ c = .continueOn target) :
      Loop.find? (⟨l, head, out⟩ :: loops) target = Loop.find? loops target := by
    apply Loop.find?_cons_of_not_takes
    intro h
    exact hjump.elim (htakes target h).1 (htakes target h).2
  constructor
  · intro h
    exact h.congr hc hfind
  · intro h
    exact h.congr hc fun target hjump => (hfind target hjump).symm

lemma run_cases {point : Point} (hp : g.inner exit p = some point) (h : g.Run exit p tr e) :
    (tr = [] ∧ e = .unfinished) ∨
      (∃ a q tr', point.Moves a q ∧ tr = a :: tr' ∧ g.Run exit q tr' e) ∨
      ∃ a, point.Ends a e ∧ tr = [a] := by
  cases h with
  | unfinished => exact .inl ⟨rfl, rfl⟩
  | exit => simp at hp
  | move hp' ha h =>
    obtain rfl := Option.some.inj (hp.symm.trans hp')
    exact .inr (.inl ⟨_, _, _, ha, rfl, h⟩)
  | last hp' ha =>
    obtain rfl := Option.some.inj (hp.symm.trans hp')
    exact .inr (.inr ⟨_, ha, rfl⟩)

lemma run_cons_iff {a : Action} :
    g.Run exit p (a :: tr) .unfinished ↔ ∃ point q, g.inner exit p = some point ∧
      point.Moves a q ∧ g.Run exit q tr .unfinished := by
  constructor
  · intro h
    cases h with
    | move hp ha h => exact ⟨_, _, hp, ha, h⟩
    | last _ ha => cases ha
  · rintro ⟨point, q, hp, ha, h⟩
    exact .move hp ha h

lemma moves_unique {point : Point} {a : Action} {q q' : PointId} (h : point.Moves a q)
    (h' : point.Moves a q') : q = q' := by
  cases h <;> cases h' <;> rfl

lemma exists_move {t : Nat → Action} {n : Nat}
    (h : ∀ m, g.Run exit p ((List.range' n m).map t) .unfinished) :
    ∃ q, (∃ point, g.inner exit p = some point ∧ point.Moves (t n) q) ∧
      ∀ m, g.Run exit q ((List.range' (n + 1) m).map t) .unfinished := by
  have h (m : Nat) : g.Run exit p (t n :: (List.range' (n + 1) m).map t) .unfinished := h (m + 1)
  obtain ⟨point, q, hp, ha, -⟩ := run_cons_iff.1 (h 0)
  refine ⟨q, ⟨point, hp, ha⟩, fun m => ?_⟩
  obtain ⟨point', q', hp', ha', hrun⟩ := run_cons_iff.1 (h m)
  obtain rfl := Option.some.inj (hp.symm.trans hp')
  exact moves_unique ha ha' ▸ hrun

/-- A graph has a run that never ends if it has all finite parts of it: which way a test goes is
seen in the actions, and leaves no choice where to go on. -/
lemma runsForever_iff {t : Nat → Action} :
    g.RunsForever exit p t ↔ ∀ m, g.Run exit p ((List.range m).map t) .unfinished := by
  simp only [List.range_eq_range']
  constructor
  · rintro ⟨q, rfl, hq⟩ m
    suffices h : ∀ n, g.Run exit (q n) ((List.range' n m).map t) .unfinished from h 0
    induction m with
    | zero => exact fun n => .unfinished
    | succ m ih =>
      intro n
      obtain ⟨point, hp, ha⟩ := hq n
      exact .move hp ha (ih (n + 1))
  · intro h
    have hstep (n : Nat) (p : PointId)
      (h : ∀ m, g.Run exit p ((List.range' n m).map t) .unfinished) := exists_move h
    choose! next hmove hrun using hstep
    have hq : ∀ n m, g.Run exit (Nat.rec p next n) ((List.range' n m).map t) .unfinished := by
      intro n
      induction n with
      | zero => exact h
      | succ n ih => exact hrun n _ ih
    exact ⟨fun n => Nat.rec p next n, rfl, fun n => hmove n _ (hq n)⟩

/-- A point that stands for a jump out of all loops. -/
lemma run_iff_strays {jump : Stmt} (hp : g.inner exit p = some (.unsupported jump)) :
    g.Run exit p tr e ↔ Strays jump tr e := by
  constructor
  · intro h
    rcases run_cases hp h with h | ⟨a, q, tr', ha, -⟩ | ⟨a, ha, rfl⟩
    · exact .inl h
    · cases ha
    · cases ha
      exact .inr ⟨rfl, rfl⟩
  · rintro (⟨rfl, rfl⟩ | ⟨rfl, rfl⟩)
    · exact .unfinished
    · exact .last hp .unsupported

lemma Embeds.run_breakOut_iff {target : Option String}
    (hs : g.Embeds exit loops l (.jump .breakOut target) p next) :
    g.Run exit p tr e ↔ g.After exit loops next (.breakOut target) tr e := by
  cases hs with
  | stop h => cases h
  | breakOut hloop => rw [after_breakOut_iff hloop]
  | strayBreak hloop hp => rw [after_strayBreak_iff hloop, run_iff_strays hp]

lemma Embeds.run_continueOn_iff {target : Option String}
    (hs : g.Embeds exit loops l (.jump .continueOn target) p next) :
    g.Run exit p tr e ↔ g.After exit loops next (.continueOn target) tr e := by
  cases hs with
  | stop h => cases h
  | continueOn hloop => rw [after_continueOn_iff hloop]
  | strayContinue hloop hp => rw [after_strayContinue_iff hloop, run_iff_strays hp]

end FlowGraph

end Staged
