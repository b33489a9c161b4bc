import Staged.Proofs.Graph.Goto

/-!
Which way edges lead. A statement is compiled against points that are there already, so its points
lead down, to points with smaller numbers. The one exception is the test of a loop, which is made
before the body that it leads to when it is true.
-/

namespace Staged

namespace Site

/-- At `p` stands the test of a loop in `c`. It is the first point that compiling the loop adds. -/
def TestsAt (c : Site) (p : PointId) : Prop :=
  ∃ part, c.Has part ∧ (∃ init test post body, part.stmt = .loop init test post body) ∧
    part.draft.graph.size = p

variable {c : Site} {p : PointId}

lemma testsAt_iff : c.TestsAt p ↔
    ((∃ init test post body, c.stmt = .loop init test post body) ∧ c.draft.graph.size = p) ∨
      ∃ a ∈ c.parts, a.TestsAt p := by
  simp only [TestsAt, has_iff (c := c)]
  grind

end Site

namespace Draft

/-- The points that `d'` has and `d` has not lead down, but for the true sides of tests at `tests`,
and these are branches. -/
structure Descends (tests : PointId → Prop) (d d' : Draft) : Prop where
  grows : d.Grows d'
  edge : ∀ p i q, d.graph.size ≤ p → (d'.graph.successors p)[i]? = some q →
    q < p ∨ i = 0 ∧ tests p
  branch : ∀ p, tests p → ∃ test ifTrue ifFalse,
    d'.graph.get? p = some (.branch test ifTrue ifFalse)

variable {d d' d'' : Draft} {tests tests' : PointId → Prop} {p target : PointId}

/-- No test of a loop comes in. -/
abbrev Falls (d d' : Draft) : Prop := d.Descends (fun _ => False) d'

lemma Grows.successors_eq (h : d.Grows d') (hp : p < d.graph.size) :
    d'.graph.successors p = d.graph.successors p := by
  simp only [FlowGraph.successors, h.get?_eq p hp]

lemma fst_add_lt (d : Draft) (point : Point) : (d.add point).1 < (d.add point).2.graph.size := by
  simp [add]

namespace Descends

lemma trans (h : d.Descends tests d') (h' : d'.Descends tests' d'') :
    d.Descends (fun p => tests p ∨ tests' p) d'' where
  grows := h.grows.trans h'.grows
  edge p i q hp hq := by
    by_cases hlt : p < d'.graph.size
    · rw [h'.grows.successors_eq hlt] at hq
      exact (h.edge p i q hp hq).imp id (.imp_right .inl)
    · exact (h'.edge p i q (Nat.not_lt.1 hlt) hq).imp id (.imp_right .inr)
  branch p hp := by
    rcases hp with hp | hp
    · obtain ⟨test, ifTrue, ifFalse, hbranch⟩ := h.branch p hp
      have hlt : p < d'.graph.size := (Array.getElem?_eq_some_iff.1 hbranch).1
      exact ⟨test, ifTrue, ifFalse, (h'.grows.get?_eq p hlt).trans hbranch⟩
    · exact h'.branch p hp

lemma congr (h : d.Descends tests d') (htests : ∀ p, tests p ↔ tests' p) :
    d.Descends tests' d' where
  grows := h.grows
  edge p i q hp hq := (h.edge p i q hp hq).imp id (.imp_right (htests p).1)
  branch p hp := h.branch p ((htests p).2 hp)

/-- The true side of a branch among the new points may lead anywhere once it counts as a test. -/
lemma aimTrue (h : d.Descends tests d') (hp : d.graph.size ≤ p) {test : Option Expr}
    {ifTrue ifFalse : PointId} (hbranch : d'.graph.get? p = some (.branch test ifTrue ifFalse))
    (target : PointId) : d.Descends (fun q => q = p ∨ tests q) (d'.aimTrue p target) where
  grows := h.grows.aimTrue hp target
  edge q i r hq hr := by
    by_cases hqp : q = p
    · subst hqp
      rcases i with _ | i
      · exact .inr ⟨rfl, .inl rfl⟩
      · -- only the true side has moved
        have hside : (d'.graph.successors q)[i + 1]? = some r := by
          rw [FlowGraph.successors, get?_aimTrue hbranch target] at hr
          rw [FlowGraph.successors, hbranch]
          simpa [Point.successors] using hr
        exact .inl ((h.edge q (i + 1) r hq hside).resolve_right (by simp))
    · rw [FlowGraph.successors, get?_aimTrue_of_ne d' target (Ne.symm hqp)] at hr
      exact (h.edge q i r hq hr).imp id (.imp_right .inr)
  branch q hq := by
    by_cases hqp : q = p
    · exact ⟨test, target, ifFalse, hqp ▸ get?_aimTrue hbranch target⟩
    · rw [get?_aimTrue_of_ne d' target (Ne.symm hqp)]
      exact h.branch q (hq.resolve_left hqp)

end Descends

namespace Falls

lemma refl (d : Draft) : d.Falls d where
  grows := .refl d
  edge p i q hp hq := by
    simp [FlowGraph.successors, FlowGraph.get?_eq_none_iff.2 hp] at hq
  branch _ := False.elim

lemma add {point : Point} (h : ∀ q ∈ point.successors, q < d.graph.size) :
    d.Falls (d.add point).2 where
  grows := d.grows_add point
  edge p i q hp hq := by
    rcases Nat.eq_or_lt_of_le hp with rfl | hlt
    · rw [FlowGraph.successors, get?_add] at hq
      exact .inl (h q (List.mem_of_getElem? hq))
    · have hnone : (d.add point).2.graph.get? p = none :=
        FlowGraph.get?_eq_none_iff.2 (by rw [size_graph_add]; exact hlt)
      simp [FlowGraph.successors, hnone] at hq
  branch _ := False.elim

lemma add_branch (test : Option Expr) {ifTrue ifFalse : PointId} (htrue : ifTrue < d.graph.size)
    (hfalse : ifFalse < d.graph.size) : d.Falls (d.add (.branch test ifTrue ifFalse)).2 :=
  add (by simp [Point.successors, htrue, hfalse])

lemma enter (d : Draft) (label : String) (entry : PointId) : d.Falls (d.enter label entry) where
  grows := d.grows_enter label entry
  edge := (Falls.refl d).edge
  branch _ := False.elim

end Falls

end Draft

namespace Site

/-- All the points that a statement may lead to are there before it. -/
structure Ready (c : Site) : Prop where
  next_lt : c.next < c.draft.graph.size
  loop_lt : ∀ loop ∈ c.loops, loop.next < c.draft.graph.size ∧ loop.out < c.draft.graph.size

/-- Compiling the statement adds points that lead down, but for its tests of loops. -/
structure Descends (c : Site) : Prop where
  descends : c.draft.Descends c.TestsAt c.after
  entry_lt : c.entry < c.after.graph.size

variable {loops : List Loop} {label : Option String} {s : Stmt} {next : PointId} {d : Draft}

/-- The statement adds points that lead down wherever it stands. -/
def Sinks (s : Stmt) : Prop :=
  ∀ loops label next d, Ready ⟨loops, label, s, next, d⟩ → Descends ⟨loops, label, s, next, d⟩

/-- Points that are there stay there. -/
lemma Ready.of_grows {d' : Draft} {label' : Option String} {s' : Stmt} {next' : PointId}
    (h : Ready ⟨loops, label, s, next, d⟩) (hd : d.Grows d') (hnext : next' < d'.graph.size) :
    Ready ⟨loops, label', s', next', d'⟩ where
  next_lt := hnext
  loop_lt loop hloop :=
    ⟨Nat.lt_of_lt_of_le (h.loop_lt loop hloop).1 hd.size_le,
      Nat.lt_of_lt_of_le (h.loop_lt loop hloop).2 hd.size_le⟩

lemma Ready.next_lt_of_grows {d' : Draft} (h : Ready ⟨loops, label, s, next, d⟩)
    (hd : d.Grows d') : next < d'.graph.size :=
  Nat.lt_of_lt_of_le h.next_lt hd.size_le

lemma Ready.enter_loop (h : Ready ⟨loops, label, s, next, d⟩) {loop : Loop}
    (hnext : loop.next < d.graph.size) (hout : loop.out < d.graph.size) :
    Ready ⟨loop :: loops, label, s, next, d⟩ where
  next_lt := h.next_lt
  loop_lt := List.forall_mem_cons.2 ⟨⟨hnext, hout⟩, h.loop_lt⟩

/-- The statement before a loop is compiled when the test, at `p`, has been aimed at the body. -/
lemma Ready.of_aimTrue {body : Site} {label' : Option String} {s' : Stmt} {p : PointId}
    (h : Ready ⟨loops, label, s, next, d⟩) (hb : body.Descends) (hd : d.Grows body.draft)
    (hle : d.graph.size ≤ p) (hp : p < body.draft.graph.size) :
    Ready ⟨loops, label', s', p, body.after.aimTrue p body.entry⟩ := by
  refine h.of_grows ((hd.trans hb.descends.grows).aimTrue hle body.entry) ?_
  rw [Draft.size_graph_aimTrue]
  exact Nat.lt_of_lt_of_le hp hb.descends.grows.size_le

lemma Ready.find? {loop : Loop} {target : Option String} (h : Ready ⟨loops, label, s, next, d⟩)
    (hloop : Loop.find? loops target = some loop) :
    loop.next < d.graph.size ∧ loop.out < d.graph.size := by
  refine h.loop_lt loop ?_
  cases target with
  | none => exact List.mem_of_head? hloop
  | some target => exact List.mem_of_find?_eq_some hloop

/-- A statement that is no loop has the tests of its parts. -/
lemma descends_of_parts {c : Site}
    (hloop : ∀ init test post body, c.stmt ≠ .loop init test post body)
    (h : c.draft.Descends (fun p => ∃ a ∈ c.parts, a.TestsAt p) c.after)
    (hentry : c.entry < c.after.graph.size) : c.Descends where
  descends := by
    refine h.congr fun p => ?_
    rw [testsAt_iff, or_iff_right]
    rintro ⟨⟨init, test, post, body, hstmt⟩, -⟩
    exact hloop init test post body hstmt
  entry_lt := hentry

/-- The part that is compiled last runs first. -/
lemma descends_of_last {c last : Site}
    (hloop : ∀ init test post body, c.stmt ≠ .loop init test post body)
    (hentry : c.entry = last.entry) (hafter : c.after = last.after) (hlast : last.Descends)
    (h : c.draft.Descends (fun p => ∃ a ∈ c.parts, a.TestsAt p) last.after) : c.Descends :=
  descends_of_parts hloop (hafter ▸ h) (by rw [hentry, hafter]; exact hlast.entry_lt)

/-- A statement without parts adds at most one point, and that leads down. -/
lemma descends_leaf (hloop : ∀ init test post body, s ≠ .loop init test post body)
    (hparts : parts ⟨loops, label, s, next, d⟩ = [])
    (h : (∃ p < d.graph.size, Stmt.compile loops label s next d = (p, d)) ∨
      ∃ point, Stmt.compile loops label s next d = d.add point ∧
        ∀ q ∈ point.successors, q < d.graph.size) :
    Descends ⟨loops, label, s, next, d⟩ := by
  have hnone (p : PointId) :
      False ↔ ∃ a ∈ parts ⟨loops, label, s, next, d⟩, a.TestsAt p := by simp [hparts]
  refine descends_of_parts hloop (.congr ?_ hnone) ?_
  · rw [after]
    obtain ⟨p, hp, h⟩ | ⟨point, h, hpoint⟩ := h <;> rw [h]
    · exact Draft.Falls.refl d
    · exact Draft.Falls.add hpoint
  · rw [entry, after]
    obtain ⟨p, hp, h⟩ | ⟨point, h, -⟩ := h <;> rw [h]
    · exact hp
    · simp [Draft.add]

lemma sinks_assign (targets values : List Expr) (define : Bool) (op : Option BinaryOp) :
    Sinks (.assign targets values define op) := by
  intro loops label next d h
  have hnext : next < d.graph.size := h.next_lt
  refine descends_leaf (by simp) rfl (.inr ?_)
  rcases op with _ | op
  · exact ⟨_, by rw [Stmt.compile], by simp [Point.successors, hnext]⟩
  · by_cases hone : ∃ target value, targets = [target] ∧ values = [value]
    · obtain ⟨target, value, rfl, rfl⟩ := hone
      exact ⟨_, by rw [Stmt.compile, Stmt.compound_eq], by simp [Point.successors, hnext]⟩
    · refine ⟨.unsupported (.assign targets values define (some op)), ?_, by simp [Point.successors]⟩
      rw [Stmt.compile]
      exact fun target value ht hv => hone ⟨target, value, ht, hv⟩

lemma sinks_jump {kind : JumpKind} {target : Option String}
    (hgotos : Stmt.gotos (.jump kind target) = []) : Sinks (.jump kind target) := by
  intro loops label next d h
  refine descends_leaf (by simp) rfl ?_
  rw [Stmt.compile]
  unfold Stmt.jumpTo
  split
  · simp [Stmt.gotos] at hgotos
  · split
    next loop hloop => exact .inl ⟨loop.out, (h.find? hloop).2, rfl⟩
    next => exact .inr ⟨_, rfl, by simp [Point.successors]⟩
  · split
    next loop hloop => exact .inl ⟨loop.next, (h.find? hloop).1, rfl⟩
    next => exact .inr ⟨_, rfl, by simp [Point.successors]⟩
  · exact .inr ⟨_, rfl, by simp [Point.successors]⟩

lemma Sinks.labeled {body : Stmt} (hbody : Sinks body) (l : String) :
    Sinks (.labeled l body) := by
  intro loops label next d h
  have hb := hbody loops (some l) next d (h.of_grows (.refl d) h.next_lt)
  have hentry : entry ⟨loops, label, .labeled l body, next, d⟩ =
      entry ⟨loops, some l, body, next, d⟩ := by
    simp only [entry, Stmt.compile]
  have hafter : after ⟨loops, label, .labeled l body, next, d⟩ =
      (after ⟨loops, some l, body, next, d⟩).enter l (entry ⟨loops, some l, body, next, d⟩) := by
    simp only [after, entry, Stmt.compile]
  refine descends_of_parts (by simp) ?_ ?_
  · rw [hafter]
    exact (hb.descends.trans (Draft.Falls.enter _ _ _)).congr (by simp [parts])
  · rw [hentry, hafter]
    exact hb.entry_lt

lemma Sinks.cons {rest : List Stmt} (hs : Sinks s) (hrest : Sinks (.block rest)) :
    Sinks (.block (s :: rest)) := by
  intro loops label next d h
  have hr := hrest loops none next d (h.of_grows (.refl d) h.next_lt)
  have hs := hs loops none _ _ (h.of_grows hr.descends.grows hr.entry_lt)
  refine descends_of_last (by simp) ?_ ?_ hs ((hr.descends.trans hs.descends).congr ?_)
  · simp only [entry, after, Stmt.compile, Stmt.compileAll]
  · simp only [entry, after, Stmt.compile, Stmt.compileAll]
  · simp [parts]

lemma Sinks.ifElse {init : Option Stmt} {body : Stmt} {otherwise : Option Stmt}
    (hinit : Sinks (init.getD .empty)) (hbody : Sinks body) (helse : Sinks (otherwise.getD .empty))
    (test : Expr) : Sinks (.ifElse init test body otherwise) := by
  intro loops label next d h
  have hb := hbody loops none next d (h.of_grows (.refl d) h.next_lt)
  have he := helse loops none next _
    (h.of_grows hb.descends.grows (h.next_lt_of_grows hb.descends.grows))
  have hlt := Nat.lt_of_lt_of_le hb.entry_lt he.descends.grows.size_le
  have hadd := Draft.Falls.add_branch (some test) hlt he.entry_lt
  have hgrows := hb.descends.grows.trans (he.descends.grows.trans hadd.grows)
  have hi := hinit loops none _ _ (h.of_grows hgrows (Draft.fst_add_lt _ _))
  refine descends_of_last (by simp) ?_ ?_ hi
    ((hb.descends.trans (he.descends.trans (hadd.trans hi.descends))).congr ?_)
  · simp only [entry, after, Stmt.compile, Stmt.compileOption_eq]
  · simp only [entry, after, Stmt.compile, Stmt.compileOption_eq]
  · simp [parts]

/-- The tests in a loop are its own, which is aimed at the body in the end, and those of its
parts. -/
lemma descends_of_loop {c post body init : Site} {test : Option Expr}
    (hloop : ∃ init test post body, c.stmt = .loop init test post body)
    (hparts : c.parts = [post, body, init])
    (hadd : c.draft.Falls post.draft)
    (hhead : post.draft.graph.get? c.draft.graph.size = some (.branch test c.next c.next))
    (hbody : body.draft = post.after)
    (hinit : init.draft = body.after.aimTrue c.draft.graph.size body.entry)
    (hentry : c.entry = init.entry) (hafter : c.after = init.after) (hp : post.Descends)
    (hb : body.Descends) (hi : init.Descends) : c.Descends where
  descends := by
    have hp := hp.descends
    have hb : post.after.Descends body.TestsAt body.after := hbody ▸ hb.descends
    have hlt : c.draft.graph.size < post.draft.graph.size := (Array.getElem?_eq_some_iff.1 hhead).1
    have hbranch := ((hp.grows.trans hb.grows).get?_eq _ hlt).trans hhead
    have haim := (hadd.trans (hp.trans hb)).aimTrue (Nat.le_refl _) hbranch body.entry
    rw [← hinit] at haim
    rw [hafter]
    refine (haim.trans hi.descends).congr fun p => ?_
    simp [testsAt_iff (c := c), hloop, hparts, or_assoc, eq_comm]
  entry_lt := by
    rw [hentry, hafter]
    exact hi.entry_lt

lemma Sinks.loop {init post : Option Stmt} {body : Stmt} (hinit : Sinks (init.getD .empty))
    (hpost : Sinks (post.getD .empty)) (hbody : Sinks body) (test : Option Expr) :
    Sinks (.loop init test post body) := by
  intro loops label next d h
  have hadd := Draft.Falls.add_branch test h.next_lt h.next_lt
  have hhead : d.graph.size < (d.add (.branch test next next)).2.graph.size :=
    Draft.fst_add_lt d _
  have hp := hpost loops none d.graph.size _ (h.of_grows hadd.grows hhead)
  have hgrows := hadd.grows.trans hp.descends.grows
  have hlt := Nat.lt_of_lt_of_le hhead hp.descends.grows.size_le
  have hb := hbody (⟨label, d.graph.size, next⟩ :: loops) none _ _
    ((h.of_grows hgrows hp.entry_lt).enter_loop hlt (h.next_lt_of_grows hgrows))
  have hi := hinit loops none d.graph.size _ (h.of_aimTrue hb hgrows (Nat.le_refl _) hlt)
  refine descends_of_loop ⟨init, test, post, body, rfl⟩ rfl hadd (Draft.get?_add d _) rfl rfl ?_ ?_
    hp hb hi
  · simp only [entry, after, Stmt.compile, Stmt.compileOption_eq, Draft.add]
  · simp only [entry, after, Stmt.compile, Stmt.compileOption_eq, Draft.add]

/-- Without a jump to a label, a statement adds points that lead down. -/
theorem sinks (s : Stmt) (h : s.gotos = []) : Sinks s := by
  induction s with
  | empty =>
    intro loops label next d hready
    exact descends_leaf (by simp) rfl (.inl ⟨next, hready.next_lt, by rw [Stmt.compile]⟩)
  | expr e =>
    intro loops label next d hready
    refine descends_leaf (by simp) rfl (.inr ⟨_, by rw [Stmt.compile], ?_⟩)
    simpa [Point.successors] using hready.next_lt
  | assign targets values define op => exact sinks_assign targets values define op
  | count target up =>
    intro loops label next d hready
    refine descends_leaf (by simp) rfl (.inr ⟨_, by rw [Stmt.compile, Stmt.compound_eq], ?_⟩)
    simpa [Point.successors] using hready.next_lt
  | nil =>
    intro loops label next d hready
    refine descends_leaf (by simp) rfl (.inl ⟨next, hready.next_lt, ?_⟩)
    rw [Stmt.compile, Stmt.compileAll]
  | cons s rest ihs ihrest =>
    rw [Stmt.gotos_block_cons, List.append_eq_nil_iff] at h
    exact (ihs h.1).cons (ihrest h.2)
  | ifElse init test body otherwise ihinit ihbody ihelse =>
    simp only [Stmt.gotos_ifElse, List.append_eq_nil_iff] at h
    exact (ihinit h.1.1).ifElse (ihbody h.1.2) (ihelse h.2) test
  | loop init test post body ihinit ihpost ihbody =>
    simp only [Stmt.gotos_loop, List.append_eq_nil_iff] at h
    exact (ihinit h.1.1).loop (ihpost h.1.2) (ihbody h.2) test
  | jump kind target => exact sinks_jump h
  | ret results =>
    intro loops label next d _
    exact descends_leaf (by simp) rfl (.inr ⟨_, by rw [Stmt.compile], by simp [Point.successors]⟩)
  | labeled label body ih => exact (ih h).labeled label
  | other kind =>
    intro loops label next d _
    exact descends_leaf (by simp) rfl (.inr ⟨_, by rw [Stmt.compile], by simp [Point.successors]⟩)

end Site

namespace Stmt

variable {s : Stmt} {g : FlowGraph} {next p : PointId}

/-- Without a jump to a label there is nothing to settle. -/
lemma analyze_of_gotos_eq_nil (hs : s.gotos = []) :
    s.analyze next { graph := g } = ((s.outermost next g).entry, (s.outermost next g).after) := by
  have hslots : (s.outermost next g).after.slots = [] :=
    (compiled s hs [] none next { graph := g }).grows.slots_eq
  calc s.analyze next { graph := g }
      = ((s.outermost next g).after.resolve (s.outermost next g).entry,
          (s.outermost next g).after.settle) := rfl
    _ = _ := by
      rw [Draft.resolve_of_slots_eq_nil hslots, Draft.settle_of_slots_eq_nil hslots]

lemma descends_outermost (hs : s.gotos = []) (hnext : next < g.size) :
    (s.outermost next g).Descends :=
  Site.sinks s hs [] none next { graph := g } ⟨hnext, by simp⟩

/-- Every edge leads down, or it is the true side of the test of a loop. -/
theorem lt_or_testsAt_of_edge (hs : s.gotos = [])
    (hg : ∀ p point, g.get? p = some point → point.isTerminal) (hnext : next < g.size)
    {i : Nat} {q : PointId}
    (hq : ((s.analyze next { graph := g }).2.graph.successors p)[i]? = some q) :
    q < p ∨ i = 0 ∧ (s.outermost next g).TestsAt p := by
  have h := (descends_outermost hs hnext).descends
  rw [analyze_of_gotos_eq_nil hs] at hq
  by_cases hlt : p < g.size
  · rw [h.grows.successors_eq hlt] at hq
    rcases hp : g.get? p with _ | point
    · simp [outermost, FlowGraph.successors, hp] at hq
    · have hterminal := hg p point hp
      cases point <;> simp_all [outermost, FlowGraph.successors, Point.successors, Point.isTerminal]
  · exact h.edge p i q (Nat.not_lt.1 hlt) hq

/-- The test of a loop is a branch. -/
lemma exists_branch_of_testsAt (hs : s.gotos = []) (hnext : next < g.size)
    (hp : (s.outermost next g).TestsAt p) : ∃ test ifTrue ifFalse,
      (s.analyze next { graph := g }).2.graph.get? p = some (.branch test ifTrue ifFalse) := by
  rw [analyze_of_gotos_eq_nil hs]
  exact (descends_outermost hs hnext).descends.branch p hp

end Stmt

end Staged
