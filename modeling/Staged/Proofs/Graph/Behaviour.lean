import Staged.Proofs.Graph.Run

/-!
The runs of a compiled statement. From the entry of the statement on they are its executions, each
followed by a run from the place to which its completion leads.
-/

namespace Staged

namespace FlowGraph

variable {g : FlowGraph} {exit : PointId} {loops : List Loop} {l : Option String} {s : Stmt}
  {p next : PointId} {tr : List Action} {c e : Completion}

/-! ### From executions to runs -/

/-- A graph with the statement in it runs all of its executions. -/
theorem run_of_exec {tr' : List Action} (h : s.Exec l tr c) (hs : g.Embeds exit loops l s p next)
    (hafter : g.After exit loops next c tr' e) : g.Run exit p (tr ++ tr') e := by
  induction h generalizing loops p next tr' e with
  | cut =>
    cases hafter
    exact .unfinished
  | empty =>
    obtain rfl := hs.eq_of_empty
    exact hafter.run
  | expr =>
    cases hs with
    | stop h => cases h
    | expr hp => exact .move hp .evaluate hafter.run
  | assign =>
    cases hs with
    | stop h => cases h
    | assign hp => exact .move hp .assign hafter.run
  | update =>
    cases hs with
    | stop h => cases h with | update h => exact absurd ⟨rfl, rfl⟩ h
    | update hp => exact .move hp .assign hafter.run
  | count =>
    cases hs with
    | stop h => cases h
    | count hp => exact .move hp .assign hafter.run
  | ret =>
    cases hafter
    cases hs with
    | stop h => cases h
    | ret hp => exact .last hp .ret
  | stop hstops =>
    cases hafter
    exact .last (hs.of_stops hstops) .unsupported
  | breakOut => exact hs.run_breakOut_iff.2 hafter
  | continueOn => exact hs.run_continueOn_iff.2 hafter
  | labeled _ ih =>
    cases hs with
    | stop h => cases h
    | labeled hs => exact ih hs hafter
  | nil =>
    cases hs with
    | stop h => cases h
    | nil => exact hafter.run
  | cons _ _ ihs ihrest =>
    obtain ⟨q, hs, hrest⟩ := hs.of_cons
    have hrun := ihrest hrest hafter
    rw [List.append_assoc]
    exact ihs hs (.normal hrun)
  | consAbrupt _ hc ihs =>
    obtain ⟨q, hs, -⟩ := hs.of_cons
    exact ihs hs (hafter.of_ne_normal hc)
  | ifInit _ _ ihinit ihif =>
    obtain ⟨branch, hinit, hif⟩ := hs.of_ifElse_init
    have hrun := ihif hif hafter
    rw [List.append_assoc]
    exact ihinit hinit (.normal hrun)
  | ifInitAbrupt _ hc ihinit =>
    obtain ⟨branch, hinit, -⟩ := hs.of_ifElse_init
    exact ihinit hinit (hafter.of_ne_normal hc)
  | ifTrue _ ih =>
    obtain ⟨ifTrue, ifFalse, hbranch, hbody, -⟩ := hs.of_ifElse
    exact .move hbranch .ifTrue (ih hbody hafter)
  | ifFalse _ ih =>
    obtain ⟨ifTrue, ifFalse, hbranch, -, helse⟩ := hs.of_ifElse
    exact .move hbranch .ifFalse (ih helse hafter)
  | loopInit _ _ ihinit ihloop =>
    obtain ⟨head, hinit, hloop⟩ := hs.of_loop_init
    have hrun := ihloop hloop hafter
    rw [List.append_assoc]
    exact ihinit hinit (.normal hrun)
  | loopInitAbrupt _ hc ihinit =>
    obtain ⟨head, hinit, -⟩ := hs.of_loop_init
    exact ihinit hinit (hafter.of_ne_normal hc)
  | loopFalse =>
    obtain ⟨first, again, hhead, -, -⟩ := hs.of_loop
    exact .move hhead .ifFalse hafter.run
  | loopNext _ _ _ ihbody ihpost ihloop =>
    obtain ⟨first, again, hhead, hbody, hpost⟩ := hs.of_loop
    have hround := ihloop hs hafter
    have hagain := ihpost hpost (.normal hround)
    have hfirst := ihbody hbody (.normal hagain)
    rw [List.cons_append, List.append_assoc, List.append_assoc]
    exact .move hhead .ifTrue hfirst
  | loopContinue _ htakes _ ihbody ihloop =>
    obtain ⟨first, again, hhead, hbody, -⟩ := hs.of_loop
    have hround := ihloop hs hafter
    have hfirst := ihbody hbody (.continueOn (Loop.find?_cons_of_takes htakes) hround)
    rw [List.cons_append, List.append_assoc]
    exact .move hhead .ifTrue hfirst
  | loopBreak _ htakes ihbody =>
    obtain ⟨first, again, hhead, hbody, -⟩ := hs.of_loop
    have hfirst := ihbody hbody (.breakOut (Loop.find?_cons_of_takes htakes) hafter.run)
    exact .move hhead .ifTrue hfirst
  | loopAbrupt _ hc htakes ihbody =>
    obtain ⟨first, again, hhead, hbody, -⟩ := hs.of_loop
    have hfirst := ihbody hbody ((after_cons_iff hc htakes).2 hafter)
    exact .move hhead .ifTrue hfirst
  | loopPostAbrupt _ _ hc ihbody ihpost =>
    obtain ⟨first, again, hhead, hbody, hpost⟩ := hs.of_loop
    have hagain := ihpost hpost (hafter.of_ne_normal hc)
    have hfirst := ihbody hbody (.normal hagain)
    rw [List.cons_append, List.append_assoc]
    exact .move hhead .ifTrue hfirst

/-! ### From runs to executions -/

/-- A run that is an execution of the statement, followed by a run from where that leads to. -/
def Splits (g : FlowGraph) (exit : PointId) (loops : List Loop) (l : Option String) (s : Stmt)
    (next : PointId) (tr : List Action) (e : Completion) : Prop :=
  ∃ tr₁ tr₂ c, tr = tr₁ ++ tr₂ ∧ s.Exec l tr₁ c ∧ g.After exit loops next c tr₂ e

lemma splits_unfinished : g.Splits exit loops l s next [] .unfinished :=
  ⟨[], [], .unfinished, rfl, .cut, .unfinished⟩

lemma splits_of_run (hexec : s.Exec l [] .normal) (h : g.Run exit next tr e) :
    g.Splits exit loops l s next tr e :=
  ⟨[], tr, .normal, rfl, hexec, .normal h⟩

/-- A point with one action, after which control goes on. -/
lemma splits_of_moves {point : Point} {a : Action} (hp : g.inner exit p = some point)
    (hmoves : ∀ a' q, point.Moves a' q → a' = a ∧ q = next) (hends : ∀ a' c, ¬ point.Ends a' c)
    (hexec : s.Exec l [a] .normal) (h : g.Run exit p tr e) :
    g.Splits exit loops l s next tr e := by
  rcases run_cases hp h with ⟨rfl, rfl⟩ | ⟨a', q, tr', ha, rfl, hrun⟩ | ⟨a', ha, -⟩
  · exact splits_unfinished
  · obtain ⟨rfl, rfl⟩ := hmoves a' q ha
    exact ⟨[a'], tr', .normal, rfl, hexec, .normal hrun⟩
  · exact absurd ha (hends a' e)

lemma splits_of_assign {targets values : List Expr} {define : Bool}
    (hp : g.inner exit p = some (.assign targets values define next))
    (hexec : s.Exec l [.assign targets values define] .normal) (h : g.Run exit p tr e) :
    g.Splits exit loops l s next tr e := by
  apply splits_of_moves hp
  · intro a q ha
    cases ha
    exact ⟨rfl, rfl⟩
  · intro a c ha
    cases ha
  · exact hexec
  · exact h

/-- A statement that begins with `s` and goes on with `t`. -/
lemma Splits.seq {l' l₂ : Option String} {t u : Stmt} {q : PointId}
    (h : g.Splits exit loops l' s q tr e)
    (hrest : ∀ tr, g.Run exit q tr e → g.Splits exit loops l₂ t next tr e)
    (hseq : ∀ {tr tr' c}, s.Exec l' tr .normal → t.Exec l₂ tr' c → u.Exec l (tr ++ tr') c)
    (habrupt : ∀ {tr c}, s.Exec l' tr c → c ≠ .normal → u.Exec l tr c) :
    g.Splits exit loops l u next tr e := by
  obtain ⟨tr₁, tr₂, c, rfl, hs, hafter⟩ := h
  by_cases hc : c = .normal
  · subst hc
    obtain ⟨tr₃, tr₄, c, rfl, ht, hafter⟩ := hrest tr₂ hafter.run
    exact ⟨tr₁ ++ tr₃, tr₄, c, (List.append_assoc ..).symm, hseq hs ht, hafter⟩
  · exact ⟨tr₁, tr₂, c, rfl, habrupt hs hc, hafter.of_ne_normal hc⟩

variable {test : Option Expr} {post : Option Stmt} {body : Stmt} {head first again : PointId}

/-- A round of a loop, where shorter runs from its test are known to be executions of the loop. -/
lemma Splits.round (h : g.Splits exit (⟨l, head, next⟩ :: loops) none body again tr e)
    (hpost : ∀ tr, g.Run exit again tr e → g.Splits exit loops none (post.getD .empty) head tr e)
    (hloop : ∀ tr', tr'.length ≤ tr.length → g.Run exit head tr' e →
      g.Splits exit loops l (.loop none test post body) next tr' e) :
    g.Splits exit loops l (.loop none test post body) next (.test test true :: tr) e := by
  obtain ⟨tr₁, tr₂, c, rfl, hbody, hafter⟩ := h
  by_cases hc : c = .normal
  · subst hc
    obtain ⟨tr₃, tr₄, c, rfl, hexec, hafter⟩ := hpost tr₂ hafter.run
    by_cases hc : c = .normal
    · subst hc
      have hlen : tr₄.length ≤ (tr₁ ++ (tr₃ ++ tr₄)).length := by
        simp only [List.length_append]
        omega
      obtain ⟨tr₅, tr₆, c, rfl, hagain, hafter⟩ := hloop tr₄ hlen hafter.run
      exact ⟨_, tr₆, c, by simp, .loopNext hbody hexec hagain, hafter⟩
    · exact ⟨_, tr₄, c, by simp, .loopPostAbrupt hbody hexec hc, hafter.of_ne_normal hc⟩
  by_cases htakes : ∀ target, Stmt.Takes l target → c ≠ .breakOut target ∧ c ≠ .continueOn target
  · have hout : g.After exit loops next c tr₂ e := (after_cons_iff hc htakes).1 hafter
    exact ⟨_, tr₂, c, rfl, .loopAbrupt hbody hc htakes, hout⟩
  · obtain ⟨target, htarget, hjump⟩ : ∃ target, Stmt.Takes l target ∧
        (c = .breakOut target ∨ c = .continueOn target) := by grind
    rcases hjump with rfl | rfl
    · have hout := (after_breakOut_iff (Loop.find?_cons_of_takes htarget)).1 hafter
      exact ⟨_, tr₂, .normal, rfl, .loopBreak hbody htarget, .normal hout⟩
    · have hlen : tr₂.length ≤ (tr₁ ++ tr₂).length := by
        rw [List.length_append]
        omega
      have hround := (after_continueOn_iff (Loop.find?_cons_of_takes htarget)).1 hafter
      obtain ⟨tr₃, tr₄, c, rfl, hagain, hafter⟩ := hloop tr₂ hlen hround
      exact ⟨_, tr₄, c, by simp, .loopContinue hbody htarget hagain, hafter⟩

/-- By induction on the length of the run: every round of a loop tests. -/
lemma splits_loop (hhead : g.inner exit head = some (.branch test first next))
    (hbody : ∀ tr, g.Run exit first tr e →
      g.Splits exit (⟨l, head, next⟩ :: loops) none body again tr e)
    (hpost : ∀ tr, g.Run exit again tr e → g.Splits exit loops none (post.getD .empty) head tr e)
    (h : g.Run exit head tr e) :
    g.Splits exit loops l (.loop none test post body) next tr e := by
  induction hn : tr.length using Nat.strongRecOn generalizing tr with
  | _ n ih =>
  rcases run_cases hhead h with ⟨rfl, rfl⟩ | ⟨a, q, tr', ha, rfl, hrun⟩ | ⟨a, ha, -⟩
  · exact splits_unfinished
  · cases ha with
    | ifFalse => exact ⟨_, tr', .normal, rfl, .loopFalse, .normal hrun⟩
    | ifTrue =>
      refine (hbody tr' hrun).round hpost fun tr hlen hrun => ?_
      have hlt : tr.length < n := by
        rw [← hn, List.length_cons]
        omega
      exact ih tr.length hlt hrun rfl
  · cases ha

/-- A run from the entry of a statement is one of its executions, and then a run from where that
leads to. -/
theorem splits_of_embeds (hs : g.Embeds exit loops l s p next) (h : g.Run exit p tr e) :
    g.Splits exit loops l s next tr e := by
  induction hs generalizing tr e with
  | empty => exact splits_of_run .empty h
  | expr hp =>
    refine splits_of_moves hp (fun a q ha => ?_) (fun a c ha => nomatch ha) .expr h
    cases ha
    exact ⟨rfl, rfl⟩
  | assign hp => exact splits_of_assign hp .assign h
  | update hp => exact splits_of_assign hp .update h
  | count hp => exact splits_of_assign hp .count h
  | ret hp =>
    rcases run_cases hp h with ⟨rfl, rfl⟩ | ⟨a, q, tr', ha, -⟩ | ⟨a, ha, rfl⟩
    · exact splits_unfinished
    · cases ha
    · cases ha
      exact ⟨_, [], .returned, rfl, .ret, .returned⟩
  | stop hstops hp =>
    rcases (run_iff_strays hp).1 h with ⟨rfl, rfl⟩ | ⟨rfl, rfl⟩
    · exact splits_unfinished
    · exact ⟨_, [], .stopped, rfl, .stop hstops, .stopped⟩
  | breakOut hloop => exact ⟨[], _, _, rfl, .breakOut, .breakOut hloop h⟩
  | strayBreak hloop hp =>
    exact ⟨[], _, _, rfl, .breakOut, .strayBreak hloop ((run_iff_strays hp).1 h)⟩
  | continueOn hloop => exact ⟨[], _, _, rfl, .continueOn, .continueOn hloop h⟩
  | strayContinue hloop hp =>
    exact ⟨[], _, _, rfl, .continueOn, .strayContinue hloop ((run_iff_strays hp).1 h)⟩
  | labeled _ ih =>
    obtain ⟨tr₁, tr₂, c, rfl, hexec, hafter⟩ := ih h
    exact ⟨tr₁, tr₂, c, rfl, .labeled hexec, hafter⟩
  | nil => exact splits_of_run .nil h
  | cons _ _ ihs ihrest => exact (ihs h).seq (fun _ => ihrest) .cons .consAbrupt
  | @ifElse loops l init test body otherwise p branch ifTrue ifFalse next hinit hbranch _ _ ihinit
      ihbody ihelse =>
    have hif (tr : List Action) (h : g.Run exit branch tr e) :
        g.Splits exit loops l (.ifElse none test body otherwise) next tr e := by
      rcases run_cases hbranch h with ⟨rfl, rfl⟩ | ⟨a, q, tr', ha, rfl, h⟩ | ⟨a, ha, -⟩
      · exact splits_unfinished
      · cases ha with
        | ifTrue =>
          obtain ⟨tr₁, tr₂, c, rfl, hexec, hafter⟩ := ihbody h
          exact ⟨_, tr₂, c, rfl, .ifTrue hexec, hafter⟩
        | ifFalse =>
          obtain ⟨tr₁, tr₂, c, rfl, hexec, hafter⟩ := ihelse h
          exact ⟨_, tr₂, c, rfl, .ifFalse hexec, hafter⟩
      · cases ha
    cases init with
    | none => exact hif tr (hinit.eq_of_empty ▸ h)
    | some init => exact (ihinit h).seq hif .ifInit .ifInitAbrupt
  | @loop loops l init test post body p head first again next hinit hhead _ _ ihinit ihbody
      ihpost =>
    have hloop (tr : List Action) (h : g.Run exit head tr e) :
        g.Splits exit loops l (.loop none test post body) next tr e :=
      splits_loop hhead (fun _ => ihbody) (fun _ => ihpost) h
    cases init with
    | none => exact hloop tr (hinit.eq_of_empty ▸ h)
    | some init => exact (ihinit h).seq hloop .loopInit .loopInitAbrupt

/-! ### Whole bodies -/

lemma after_unfinished (hc : c ≠ .returned ∧ c ≠ .stopped) :
    g.After exit [] exit c [] .unfinished := by
  cases c with
  | unfinished => exact .unfinished
  | normal => exact .normal .unfinished
  | breakOut => exact .strayBreak Loop.find?_nil (.inl ⟨rfl, rfl⟩)
  | continueOn => exact .strayContinue Loop.find?_nil (.inl ⟨rfl, rfl⟩)
  | returned => exact absurd rfl hc.1
  | stopped => exact absurd rfl hc.2

lemma Strays.runs {jump : Stmt} {tr' : List Action}
    (hcut : s.Runs tr .unfinished) (hstray : s.Runs (tr ++ [.stop jump]) .stopped)
    (h : Strays jump tr' e) : s.Runs (tr ++ tr') e := by
  rcases h with ⟨rfl, rfl⟩ | ⟨rfl, rfl⟩
  · rwa [List.append_nil]
  · exact hstray

theorem run_iff_runs (hs : g.Embeds exit [] none s p exit) :
    g.Run exit p tr e ↔ s.Runs tr e := by
  constructor
  · intro h
    obtain ⟨tr₁, tr₂, c, rfl, hexec, hafter⟩ := splits_of_embeds hs h
    cases hafter with
    | unfinished =>
      rw [List.append_nil]
      exact .unfinished hexec (by simp)
    | normal h =>
      -- the run is at its end already
      cases h with
      | unfinished =>
        rw [List.append_nil]
        exact .unfinished hexec (by simp)
      | exit =>
        rw [List.append_nil]
        exact .normal hexec
      | move hp => simp at hp
      | last hp => simp at hp
    | breakOut hloop => simp at hloop
    | continueOn hloop => simp at hloop
    | strayBreak _ h => exact h.runs (.unfinished hexec (by simp)) (.strayBreak hexec)
    | strayContinue _ h => exact h.runs (.unfinished hexec (by simp)) (.strayContinue hexec)
    | returned =>
      rw [List.append_nil]
      exact .returned hexec
    | stopped =>
      rw [List.append_nil]
      exact .stopped hexec
  · rintro (⟨h, hc⟩ | h | h | h | h | h)
    · simpa using run_of_exec h hs (after_unfinished hc)
    · simpa using run_of_exec h hs (.normal .exit)
    · simpa using run_of_exec h hs .returned
    · simpa using run_of_exec h hs .stopped
    · exact run_of_exec h hs (.strayBreak Loop.find?_nil (.inr ⟨rfl, rfl⟩))
    · exact run_of_exec h hs (.strayContinue Loop.find?_nil (.inr ⟨rfl, rfl⟩))

end FlowGraph

namespace Stmt

/-- **The flow graph behaves as the statement.** Compiling a statement without a jump to a label
leaves the points of the graph where they are. From the entry of the statement as far as the point
that it is compiled against, the runs that end and those that do not are the runs of the statement
itself. -/
theorem run_analyze_iff (s : Stmt) (hs : s.gotos = []) (g : FlowGraph) (next : PointId)
    (hnext : next < g.size) :
    let r := s.analyze next { graph := g }
    (∀ p < g.size, r.2.graph.get? p = g.get? p) ∧
      (∀ tr c, r.2.graph.Run next r.1 tr c ↔ s.Runs tr c) ∧
      ∀ t, r.2.graph.RunsForever next r.1 t ↔ s.RunsForever t := by
  have hc := compiled s hs [] none next { graph := g }
  have hslots := hc.grows.slots_eq
  simp only [analyze, Draft.settle_of_slots_eq_nil hslots, Draft.resolve_of_slots_eq_nil hslots]
  have hembeds : (compile [] none s next { graph := g }).2.graph.Embeds next [] none s
      (compile [] none s next { graph := g }).1 next := hc.embeds _ _ fun p hp _ => by
    have hne : p ≠ next := Nat.ne_of_gt (Nat.lt_of_lt_of_le hnext hp)
    rw [FlowGraph.inner, if_neg hne]
  refine ⟨hc.grows.get?_eq, fun tr c => FlowGraph.run_iff_runs hembeds, fun t => ?_⟩
  rw [FlowGraph.runsForever_iff]
  exact forall_congr' fun n => FlowGraph.run_iff_runs hembeds

/-- In `outer: for a; j++ { for b { continue outer } }` the inner loop goes on with the test of the
outer one, and `j` is not counted. -/
theorem run_analyze_continue_outer :
    let s : Stmt := .labeled "outer" (.loop none (some (.name "a")) (some (.count (.name "j") true))
      (.loop none (some (.name "b")) none (.jump .continueOn (some "outer"))))
    let r := s.analyze 0 { graph := .exit }
    s.gotos = [] ∧ r.2.graph.Run 0 r.1 [.test (some (.name "a")) true,
      .test (some (.name "b")) true, .test (some (.name "a")) false] .normal := by
  intro s r
  have hinner : Exec none (.loop none (some (.name "b")) none (.jump .continueOn (some "outer")))
      [.test (some (.name "b")) true] (.continueOn (some "outer")) :=
    .loopAbrupt .continueOn (by simp) (by simp [Takes])
  have hexec : s.Exec none [.test (some (.name "a")) true, .test (some (.name "b")) true,
      .test (some (.name "a")) false] .normal :=
    .labeled (.loopContinue hinner (.inr rfl) .loopFalse)
  have hgotos : s.gotos = [] := by simp [s, gotos, gotosOption]
  exact ⟨hgotos, ((run_analyze_iff s hgotos .exit 0 (by decide)).2.1 _ _).2 (.normal hexec)⟩

end Stmt

end Staged
