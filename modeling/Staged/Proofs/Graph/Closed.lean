import Staged.Proofs.Graph.Construction

/-!
Whatever a statement is, to compile it changes a draft in no other ways than those in which a draft
is built. So the graph that comes out has no handle that leads out of it, and it has the points that
went in.
-/

namespace Staged

namespace Site

variable {loops : List Loop} {label : Option String} {s : Stmt} {next : PointId} {d d' : Draft}
  {ps : List Point}

/-- All handles that the statement is compiled with lead to points that are there. -/
structure Placed (c : Site) : Prop extends c.Ready where
  sound : c.draft.Sound

/-- Compiling the statement builds on the draft, and its entry is there. -/
structure Constructed (ps : List Point) (c : Site) : Prop where
  builds : c.draft.Builds ps c.after
  entry_lt : c.entry < c.after.graph.size

/-- The statement is compiled like this wherever it stands. -/
def Constructs (ps : List Point) (s : Stmt) : Prop :=
  ∀ loops label next d,
    Placed ⟨loops, label, s, next, d⟩ → Constructed ps ⟨loops, label, s, next, d⟩

namespace Placed

lemma next_lt_of_builds (h : Placed ⟨loops, label, s, next, d⟩) (hd : d.Builds ps d') :
    next < d'.graph.size :=
  Nat.lt_of_lt_of_le h.next_lt hd.size_le

/-- Points that are there stay there. -/
lemma of_builds {label' : Option String} {s' : Stmt} {next' : PointId}
    (h : Placed ⟨loops, label, s, next, d⟩) (hd : d.Builds ps d') (hnext : next' < d'.graph.size) :
    Placed ⟨loops, label', s', next', d'⟩ where
  next_lt := hnext
  loop_lt loop hloop :=
    ⟨Nat.lt_of_lt_of_le (h.loop_lt loop hloop).1 hd.size_le,
      Nat.lt_of_lt_of_le (h.loop_lt loop hloop).2 hd.size_le⟩
  sound := hd.sound h.sound

lemma part {label' : Option String} {s' : Stmt} (h : Placed ⟨loops, label, s, next, d⟩) :
    Placed ⟨loops, label', s', next, d⟩ :=
  h.of_builds (.refl : d.Builds [] d) h.next_lt

lemma enter_loop (h : Placed ⟨loops, label, s, next, d⟩) {loop : Loop}
    (hnext : loop.next < d.graph.size) (hout : loop.out < d.graph.size) :
    Placed ⟨loop :: loops, label, s, next, d⟩ :=
  ⟨h.toReady.enter_loop hnext hout, h.sound⟩

end Placed

lemma constructed_of_lt {p : PointId} (hp : p < d.graph.size)
    (h : Stmt.compile loops label s next d = (p, d)) :
    Constructed ps ⟨loops, label, s, next, d⟩ := by
  refine ⟨?_, ?_⟩
  · rw [after, h]
    exact .refl
  · rw [entry, after, h]
    exact hp

lemma constructed_add (point : Point) (h : Stmt.compile loops label s next d = d.add point)
    (hform : point.form ∈ ps) (hhandles : ∀ q ∈ point.successors, q < d.graph.size) :
    Constructed ps ⟨loops, label, s, next, d⟩ := by
  refine ⟨?_, ?_⟩
  · rw [after, h]
    exact .add .refl point hform hhandles
  · rw [entry, after, h]
    exact Draft.fst_add_lt d point

/-- Control stops at a point without handles. -/
lemma constructed_unsupported (stmt : Stmt) (hform : .unsupported stmt ∈ ps)
    (h : Stmt.compile loops label s next d = d.add (.unsupported stmt)) :
    Constructed ps ⟨loops, label, s, next, d⟩ :=
  constructed_add _ h hform (by simp [Point.successors])

lemma constructs_assign {targets values : List Expr} {define : Bool} {op : Option BinaryOp}
    (h : (Stmt.assign targets values define op).points ⊆ ps) :
    Constructs ps (.assign targets values define op) := by
  intro loops label next d hc
  rcases op with _ | op
  · simp only [Stmt.points, List.cons_subset, List.nil_subset, and_true] at h
    refine constructed_add (.assign targets values define next) (by rw [Stmt.compile]) h ?_
    simpa [Point.successors] using hc.next_lt
  · by_cases hone : ∃ target value, targets = [target] ∧ values = [value]
    · obtain ⟨target, value, rfl, rfl⟩ := hone
      simp only [Stmt.points, List.cons_subset, List.nil_subset, and_true] at h
      refine constructed_add (Stmt.compound target op value next) (by rw [Stmt.compile]) h ?_
      simpa [Stmt.compound, Point.successors] using hc.next_lt
    · have hone (target value : Expr) (ht : targets = [target]) (hv : values = [value]) : False :=
        hone ⟨target, value, ht, hv⟩
      rw [Stmt.points.eq_4 _ _ _ _ hone, List.cons_subset] at h
      exact constructed_unsupported _ h.1 (by rw [Stmt.compile]; exact hone)

lemma constructs_goTo {l : String} (h : .unsupported (.jump .goTo (some l)) ∈ ps) :
    Constructs ps (.jump .goTo (some l)) := by
  intro loops label next d hc
  have hcompile : Stmt.compile loops label (.jump .goTo (some l)) next d = d.slot l := by
    rw [Stmt.compile, Stmt.jumpTo]
  refine ⟨?_, ?_⟩
  · rw [after, hcompile]
    exact .slot .refl h
  · rw [entry, after, hcompile]
    rcases d.slot_eq_or l with ⟨p, hp, heq⟩ | ⟨point, -, heq⟩ <;> rw [heq]
    · exact hc.sound.slots_lt l p hp
    · exact Draft.fst_add_lt d point

lemma constructs_jump {kind : JumpKind} {target : Option String}
    (h : .unsupported (.jump kind target) ∈ ps) : Constructs ps (.jump kind target) := by
  intro loops label next d hc
  rcases kind with _ | _ | _ | _
  · rcases target with _ | l
    · exact constructed_unsupported _ h rfl
    · exact constructs_goTo h loops label next d hc
  · rcases hloop : Loop.find? loops target with _ | loop
    · exact constructed_unsupported (.jump .breakOut target) h
        (by simp [Stmt.compile, Stmt.jumpTo, hloop])
    · exact constructed_of_lt (hc.find? hloop).2 (by simp [Stmt.compile, Stmt.jumpTo, hloop])
  · rcases hloop : Loop.find? loops target with _ | loop
    · exact constructed_unsupported (.jump .continueOn target) h
        (by simp [Stmt.compile, Stmt.jumpTo, hloop])
    · exact constructed_of_lt (hc.find? hloop).1 (by simp [Stmt.compile, Stmt.jumpTo, hloop])
  · exact constructed_unsupported (.jump .fallThrough target) h
      (by simp [Stmt.compile, Stmt.jumpTo])

lemma Constructs.labeled {body : Stmt} (hbody : Constructs ps body) (l : String) :
    Constructs ps (.labeled l body) := by
  intro loops label next d hc
  have hb := hbody loops (some l) next d hc.part
  have hentry : entry ⟨loops, label, .labeled l body, next, d⟩ =
      entry ⟨loops, some l, body, next, d⟩ := by
    simp only [entry, Stmt.compile]
  have hafter : after ⟨loops, label, .labeled l body, next, d⟩ =
      (after ⟨loops, some l, body, next, d⟩).enter l (entry ⟨loops, some l, body, next, d⟩) := by
    simp only [after, entry, Stmt.compile]
  refine ⟨?_, ?_⟩
  · rw [hafter]
    exact hb.builds.enter l hb.entry_lt
  · rw [hentry, hafter]
    exact hb.entry_lt

/-- The part that is compiled last runs first. -/
lemma constructed_of_last {c last : Site} (hentry : c.entry = last.entry)
    (hafter : c.after = last.after) (hbuilds : c.draft.Builds ps last.draft)
    (hlast : last.Constructed ps) : c.Constructed ps where
  builds := by
    rw [hafter]
    exact hbuilds.trans hlast.builds
  entry_lt := by
    rw [hentry, hafter]
    exact hlast.entry_lt

lemma Constructs.cons {rest : List Stmt} (hs : Constructs ps s)
    (hrest : Constructs ps (.block rest)) : Constructs ps (.block (s :: rest)) := by
  intro loops label next d hc
  have hr := hrest loops none next d hc.part
  refine constructed_of_last ?_ ?_ hr.builds
    (hs loops none _ _ (hc.of_builds hr.builds hr.entry_lt))
  · simp only [entry, after, Stmt.compile, Stmt.compileAll]
  · simp only [entry, after, Stmt.compile, Stmt.compileAll]

lemma Constructs.ifElse {init : Option Stmt} {body : Stmt} {otherwise : Option Stmt}
    (hinit : Constructs ps (init.getD .empty)) (hbody : Constructs ps body)
    (helse : Constructs ps (otherwise.getD .empty)) {test : Expr}
    (htest : .branch (some test) 0 0 ∈ ps) :
    Constructs ps (.ifElse init test body otherwise) := by
  intro loops label next d hc
  have hb := hbody loops none next d hc.part
  have he := helse loops none next _ (hc.of_builds hb.builds (hc.next_lt_of_builds hb.builds))
  have hbuilds := (hb.builds.trans he.builds).add
    (.branch (some test) (entry ⟨loops, none, body, next, d⟩) (entry _)) htest (by
      simpa [Point.successors] using
        ⟨Nat.lt_of_lt_of_le hb.entry_lt he.builds.size_le, he.entry_lt⟩)
  refine constructed_of_last ?_ ?_ hbuilds
    (hinit loops none _ _ (hc.of_builds hbuilds (Draft.fst_add_lt _ _)))
  · simp only [entry, after, Stmt.compile, Stmt.compileOption_eq]
  · simp only [entry, after, Stmt.compile, Stmt.compileOption_eq]

lemma Constructs.loop {init post : Option Stmt} {body : Stmt} {test : Option Expr}
    (hinit : Constructs ps (init.getD .empty)) (hpost : Constructs ps (post.getD .empty))
    (hbody : Constructs ps body) (htest : .branch test 0 0 ∈ ps) :
    Constructs ps (.loop init test post body) := by
  intro loops label next d hc
  have hadd : d.Builds ps (d.add (.branch test next next)).2 :=
    .add .refl _ htest (by simpa [Point.successors] using hc.next_lt)
  have hhead : d.graph.size < (d.add (.branch test next next)).2.graph.size :=
    Draft.fst_add_lt d _
  have hp := hpost loops none d.graph.size _ (hc.of_builds hadd hhead)
  have hpbuilds := hadd.trans hp.builds
  have hlt := Nat.lt_of_lt_of_le hhead hp.builds.size_le
  have hb := hbody (⟨label, d.graph.size, next⟩ :: loops) none _ _
    ((hc.of_builds hpbuilds hp.entry_lt).enter_loop hlt (hc.next_lt_of_builds hpbuilds))
  have hbuilds := (hpbuilds.trans hb.builds).aimTrue (Nat.le_refl _) hb.entry_lt
  have hheadlt := Nat.lt_of_lt_of_le hlt hb.builds.size_le
  refine constructed_of_last ?_ ?_ hbuilds
    (hinit loops none d.graph.size _ (hc.of_builds hbuilds (by simpa using hheadlt)))
  · simp only [entry, after, Stmt.compile, Stmt.compileOption_eq, Draft.add]
  · simp only [entry, after, Stmt.compile, Stmt.compileOption_eq, Draft.add]

/-- Compiling a statement builds on the draft with points of the statement. -/
theorem constructs (h : s.points ⊆ ps) : Constructs ps s := by
  induction s with
  | empty =>
    intro loops label next d hc
    exact constructed_of_lt hc.next_lt (by rw [Stmt.compile])
  | expr e =>
    intro loops label next d hc
    simp only [Stmt.points, List.cons_subset, List.nil_subset, and_true] at h
    refine constructed_add (.evaluate e next) (by rw [Stmt.compile]) h ?_
    simpa [Point.successors] using hc.next_lt
  | assign targets values define op => exact constructs_assign h
  | count target up =>
    intro loops label next d hc
    simp only [Stmt.points, List.cons_subset, List.nil_subset, and_true] at h
    refine constructed_add
      (Stmt.compound target (if up then .add else .sub) (.lit ⟨.int, "1"⟩) next)
      (by rw [Stmt.compile]) h ?_
    simpa [Stmt.compound, Point.successors] using hc.next_lt
  | nil =>
    intro loops label next d hc
    exact constructed_of_lt hc.next_lt (by rw [Stmt.compile, Stmt.compileAll])
  | cons s rest ihs ihrest =>
    rw [Stmt.points, Stmt.pointsAll, List.append_subset, ← Stmt.points] at h
    exact (ihs h.1).cons (ihrest h.2)
  | ifElse init test body otherwise ihinit ihbody ihelse =>
    simp only [Stmt.points, Stmt.pointsOption_eq, List.cons_subset, List.append_subset] at h
    exact (ihinit h.2.1.1).ifElse (ihbody h.2.1.2) (ihelse h.2.2) h.1
  | loop init test post body ihinit ihpost ihbody =>
    simp only [Stmt.points, Stmt.pointsOption_eq, List.cons_subset, List.append_subset] at h
    exact (ihinit h.2.1.1).loop (ihpost h.2.1.2) (ihbody h.2.2) h.1
  | jump kind target =>
    simp only [Stmt.points, List.cons_subset, List.nil_subset, and_true] at h
    exact constructs_jump h
  | ret results =>
    intro loops label next d hc
    simp only [Stmt.points, List.cons_subset, List.nil_subset, and_true] at h
    exact constructed_add (.ret results) (by rw [Stmt.compile]) h (by simp [Point.successors])
  | labeled label body ih =>
    rw [Stmt.points] at h
    exact (ih h).labeled label
  | other kind =>
    intro loops label next d hc
    simp only [Stmt.points, List.cons_subset, List.nil_subset, and_true] at h
    exact constructed_unsupported (.other kind) h (by rw [Stmt.compile])

end Site

namespace Stmt

variable {s : Stmt} {next : PointId} {d : Draft}

lemma constructed_outermost (s : Stmt) (hd : d.Sound) (hnext : next < d.graph.size) :
    Site.Constructed s.points ⟨[], none, s, next, d⟩ :=
  Site.constructs (List.Subset.refl _) [] none next d ⟨⟨hnext, by simp⟩, hd⟩

/-- Analyzing a statement, perhaps after others, keeps all handles within the graph. The points that
were there stay as they are, but for those that lead to a placeholder which the statements before
have left. -/
theorem analyze_sound (s : Stmt) (hd : d.Sound) (hnext : next < d.graph.size) :
    let r := s.analyze next d
    r.2.Sound ∧ r.1 < r.2.graph.size ∧
      ∀ p point, d.graph.get? p = some point →
        (∀ q ∈ point.successors, ∀ label, (label, q) ∉ d.slots) →
        r.2.graph.get? p = some point := by
  intro r
  obtain ⟨hbuilds, hentry⟩ := constructed_outermost s hd hnext
  have hsound := hbuilds.sound hd
  refine ⟨hsound.settle, ?_, fun p point hp hpoint => ?_⟩
  · calc r.1 < (Site.after ⟨[], none, s, next, d⟩).graph.size := hsound.resolve_lt hentry
      _ = r.2.graph.size := (Draft.size_graph_settle _).symm
  · have hlt : p < d.graph.size := (Array.getElem?_eq_some_iff.1 hp).1
    have hkept : r.2.graph.get? p = ((Site.after ⟨[], none, s, next, d⟩).graph.get? p).map
        (·.redirect (Site.after ⟨[], none, s, next, d⟩).resolve) := Draft.get?_settle _ p
    rw [hkept, hbuilds.get?_eq hlt, hp, Option.map_some]
    refine congrArg some (Point.redirect_eq_self fun q hq => ?_)
    -- a placeholder that the statement has made is a new point
    refine Draft.resolve_eq_self fun label hlabel => ?_
    rcases hbuilds.mem_slots hlabel with hold | hnew
    · exact hpoint q hq label hold
    · exact Nat.not_le_of_lt (hd.lt_of_get? hp hq) hnew

/-- The points that analyzing a statement adds are points of the statement. -/
lemma form_mem_points (s : Stmt) {g : FlowGraph} (hg : g.Closed) (hnext : next < g.size)
    {p : PointId} (hp : g.size ≤ p) {point : Point}
    (hpoint : (s.analyze next { graph := g }).2.graph.get? p = some point) :
    point.form ∈ s.points := by
  have hbuilds := (constructed_outermost s (.of_graph g hg) hnext).builds
  have hsettled : (s.analyze next { graph := g }).2.graph.get? p =
      ((Site.after ⟨[], none, s, next, { graph := g }⟩).graph.get? p).map
        (·.redirect (Site.after ⟨[], none, s, next, { graph := g }⟩).resolve) :=
    Draft.get?_settle _ p
  rw [hsettled, Option.map_eq_some_iff] at hpoint
  obtain ⟨point, hpoint, rfl⟩ := hpoint
  rw [Point.form_redirect]
  exact hbuilds.form_mem hp hpoint

/-- The graph of a body has the point at its end and points of the body. -/
lemma eq_ret_or_form_mem (body : Stmt) {p : PointId} {point : Point}
    (hpoint : body.graph.2.get? p = some point) : point = .ret [] ∨ point.form ∈ body.points := by
  have hclosed := FlowGraph.closed_exit
  have hzero : 0 < FlowGraph.exit.size := by decide
  rcases Nat.eq_zero_or_pos p with rfl | hp
  · have hkept := (analyze_sound body (.of_graph .exit hclosed) hzero).2.2 0 (.ret []) rfl
      (by simp [Point.successors])
    exact .inl (Option.some.inj (hpoint.symm.trans hkept))
  · exact .inr (form_mem_points body hclosed hzero hp hpoint)

/-- **Analyzing only appends.** Whatever the statement is, if all handles of the graph lead to its
points and the point after the statement is one of them, then all handles of the new graph lead to
its points, the entry is one of them, and each point that was there is there unchanged. -/
theorem analyze_closed (s : Stmt) (g : FlowGraph) (hg : g.Closed) (next : PointId)
    (hnext : next < g.size) :
    let r := s.analyze next { graph := g }
    r.2.graph.Closed ∧ r.1 < r.2.graph.size ∧ ∀ p < g.size, r.2.graph.get? p = g.get? p := by
  intro r
  obtain ⟨hsound, hentry, hkept⟩ :=
    analyze_sound s (d := { graph := g }) (.of_graph g hg) hnext
  refine ⟨hsound.closed, hentry, fun p hp => ?_⟩
  have hget? : g.get? p = some g.points[p] := Array.getElem?_eq_getElem hp
  rw [hget?]
  exact hkept p _ hget? (by simp)

/-- The graph has a loop, and control goes on at its test. In
`top: for { if p { goto top }; switch }; goto nowhere` the jump out has no statement to lead to, and
the jump back is settled. -/
theorem analyze_closed_loop :
    let g : FlowGraph := ⟨#[.ret [], .branch (some (.name "q")) 1 0]⟩
    let s : Stmt := .block [.labeled "top" (.loop none none none
      (.block [.ifElse none (.name "p") (.jump .goTo (some "top")) none, .other "switch"])),
      .jump .goTo (some "nowhere")]
    let r := s.analyze 1 { graph := g }
    g.Closed ∧ 1 < g.size ∧ (r.1 = 3 ∧ r.2.graph.successors 3 = [6, 2]) ∧
      r.2.graph.Closed ∧ r.1 < r.2.graph.size ∧ ∀ p < g.size, r.2.graph.get? p = g.get? p := by
  intro g s r
  have hg : g.Closed := by
    refine FlowGraph.closed_iff.2 fun p point hp => ?_
    have hmem := Array.mem_of_getElem? hp
    simp only [g, List.mem_toArray, List.mem_cons, List.not_mem_nil, or_false] at hmem
    rcases hmem with rfl | rfl <;> decide
  exact ⟨hg, by decide, by decide +kernel, analyze_closed s g hg 1 (by decide)⟩

end Stmt

end Staged
