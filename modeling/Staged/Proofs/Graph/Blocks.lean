import Staged.Proofs.Graph.Goto
import Staged.Proofs.Graph.Relation

/-!
Blocks analyzed statement by statement. The draft between two statements keeps its labels, and after
each statement the jumps are settled that can be settled by then. A block analyzed at once settles
them only at its end. What is settled early follows redirects that the block has in the end, so both
ways come to the same graph, as long as redirects do not lead in circles.
-/

namespace Staged

namespace Site

/-- In the draft that compiling leaves, `p` is redirected to `q`, perhaps in several steps. -/
def Sends (c : Site) : PointId → PointId → Prop :=
  Relation.ReflTransGen (Draft.Leads c.after.redirects)

/-- The statement with the label `l` is nothing but a jump to `m`. -/
def Relays (c : Site) (l m : String) : Prop :=
  ∃ part, c.Has part ∧ part.stmt = .labeled l (.jump .goTo (some m))

variable {c : Site} {l m : String} {p q : PointId} {d : Draft}

lemma relays_iff : c.Relays l m ↔
    c.stmt = .labeled l (.jump .goTo (some m)) ∨ ∃ a ∈ c.parts, a.Relays l m := by
  simp only [Relays, has_iff (c := c)]
  grind

/-- Such a label forwards to `m`. Others do so as well: an empty statement or a block between the
label and the jump makes no point. -/
lemma Relays.forwards (h : c.Relays l m) : c.Forwards l m := by
  obtain ⟨⟨loops, label, _, next, d⟩, hpart, rfl⟩ := h
  refine ⟨_, ⟨_, hpart, ⟨_, rfl⟩, rfl⟩, ⟨loops, some l, _, next, d⟩, .tail hpart ?_, rfl, ?_⟩
  · simp [parts]
  · simp [entry, Stmt.compile]

namespace Fresh

variable {a : Site}

lemma leads_of_has (hc : c.Fresh) (ha : a.Fresh) (hhas : c.Has a)
    (hpq : Draft.Leads a.after.redirects p q) : Draft.Leads c.after.redirects p q := by
  obtain ⟨l, ⟨jump, hjump, hl⟩, ⟨labeled, hlabeled, hentry⟩⟩ := ha.leads_iff.1 hpq
  exact hc.leads_iff.2 ⟨l, ⟨jump, hhas.trans hjump, hl⟩, ⟨labeled, hhas.trans hlabeled, hentry⟩⟩

variable (hc : c.Fresh) (ha : a.Fresh) (hhas : c.Has a) (hd : a.after.Related c.Sends d)
include hc ha hhas hd

/-- The redirects of a related draft are a way that the redirects of `c` take. -/
lemma transGen_of_leads (hpq : Draft.Leads d.redirects p q) :
    Relation.TransGen (Draft.Leads c.after.redirects) p q := by
  obtain ⟨r, hr, hrq⟩ := hd.exists_lookup_left hpq
  exact .head' (hc.leads_of_has ha hhas hr) hrq

lemma sends_resolve (p : PointId) : c.Sends p (d.resolve p) :=
  Draft.reaches_resolve p |>.lift' id fun _ _ h =>
    (hc.transGen_of_leads ha hhas hd h).to_reflTransGen

lemma related_settle : a.after.Related c.Sends d.settle :=
  hd.settle_right fun _ q hpq => hpq.trans (hc.sends_resolve ha hhas hd q)

end Fresh

/-- Redirects lead in circles only where labels do. -/
lemma Fresh.eq_of_leads (hc : c.Fresh)
    (hcycles : ∀ l m, Relation.TransGen c.Forwards l m → Relation.TransGen c.Forwards m l → l = m)
    (hpq : Relation.TransGen (Draft.Leads c.after.redirects) p q)
    (hqp : Relation.TransGen (Draft.Leads c.after.redirects) q p) : p = q := by
  obtain ⟨_, hp, -⟩ := Relation.TransGen.head'_iff.1 hpq
  obtain ⟨_, hq, -⟩ := Relation.TransGen.head'_iff.1 hqp
  obtain ⟨l, hl, -⟩ := hc.leads_iff.1 hp
  obtain ⟨m, hm, -⟩ := hc.leads_iff.1 hq
  obtain rfl := hcycles l m (hc.forwards_of_leads hpq hl hm) (hc.forwards_of_leads hqp hm hl)
  exact Option.some.inj ((hc.lookup_slots_iff.2 hl).symm.trans (hc.lookup_slots_iff.2 hm))

/-- A related draft settles its handles where the draft of `c` settles their counterparts. -/
lemma Fresh.resolve_eq (hc : c.Fresh)
    (hcycles : ∀ l m, Relation.TransGen c.Forwards l m → Relation.TransGen c.Forwards m l → l = m)
    (hd : c.after.Related c.Sends d) (hpq : c.Sends p q) : c.after.resolve p = d.resolve q := by
  have hlead {p q : PointId} (h : Draft.Leads d.redirects p q) :
      Relation.TransGen (Draft.Leads c.after.redirects) p q :=
    hc.transGen_of_leads hc .refl hd h
  have hrests : Draft.Rests d.redirects (d.resolve q) :=
    Draft.rests_resolve fun _ _ _ hab hba =>
      hc.eq_of_leads hcycles (hab.lift' id fun _ _ => hlead) (hba.lift' id fun _ _ => hlead)
  refine Draft.resolve_eq_of_reaches (hpq.trans (hc.sends_resolve hc .refl hd q)) fun r hr => ?_
  -- `d` redirects the point, too, and so it leads back to itself
  obtain ⟨r', hr', hback⟩ := hd.exists_lookup_right hr
  rw [hrests r' hr'] at hback
  rcases Relation.reflTransGen_iff_eq_or_transGen.1 hback with heq | hback
  · exact heq.symm
  · exact hc.eq_of_leads hcycles hback (.single hr)

end Site

namespace Stmt

/-- The statements one by one, from the last to the first, each against the entry of the one after
it. -/
def analyzeEach (ss : List Stmt) (next : PointId) (d : Draft) : PointId × Draft :=
  ss.foldr (fun s r => s.analyze r.1 r.2) (next, d)

variable {s : Stmt} {ss rest : List Stmt} {next : PointId} {g : FlowGraph}

lemma fresh_outermost (hs : s.labels.Nodup) : (s.outermost next g).Fresh := ⟨rfl, rfl, hs⟩

lemma nodup_labels_of_cons (h : (block (s :: rest)).labels.Nodup) : (block rest).labels.Nodup := by
  simp only [labels, labelsAll] at h ⊢
  exact h.of_append_right

lemma mem_parts_block_cons :
    (block rest).outermost next g ∈ ((block (s :: rest)).outermost next g).parts := by
  simp [Site.parts, outermost]

variable {c : Site}

/-- Compiling the first statement after the others were analyzed one by one. -/
lemma relatedWith_cons
    (hrest : Draft.RelatedWith c.Sends (compile [] none (block rest) next { graph := g })
      (analyzeEach rest next { graph := g })) :
    let r := analyzeEach rest next { graph := g }
    Draft.RelatedWith c.Sends (compile [] none (block (s :: rest)) next { graph := g })
      (compile [] none s r.1 r.2) := by
  have h := relates (fun _ => .refl) s [] [] none _ _ _ _ .nil hrest.1 hrest.2
  simpa only [compile, compileAll] using h

lemma relatedWith_analyzeEach (hc : c.Fresh) (hs : (block ss).labels.Nodup)
    (hhas : c.Has ((block ss).outermost next g)) :
    Draft.RelatedWith c.Sends (compile [] none (block ss) next { graph := g })
      (analyzeEach ss next { graph := g }) := by
  induction ss with
  | nil =>
    simp only [compile, compileAll]
    exact ⟨.refl, Draft.related_refl (fun _ => .refl) _⟩
  | cons s rest ih =>
    obtain ⟨hentry, hd⟩ := relatedWith_cons (s := s)
      (ih (nodup_labels_of_cons hs) (hhas.tail mem_parts_block_cons))
    have hsettle := hc.sends_resolve (fresh_outermost hs) hhas hd
    exact ⟨hentry.trans (hsettle _), hc.related_settle (fresh_outermost hs) hhas hd⟩

/-- **A block is analyzed like its statements one by one.** If it defines no label twice, and no two
of its labels lead to each other, the entry is the same, and so is the graph. -/
theorem analyze_block_eq (ss : List Stmt) (hs : (block ss).labels.Nodup) (g : FlowGraph)
    (next : PointId)
    (hcycles : let c := (block ss).outermost next g
      ∀ l m, Relation.TransGen c.Forwards l m → Relation.TransGen c.Forwards m l → l = m) :
    let whole := (block ss).analyze next { graph := g }
    let each := analyzeEach ss next { graph := g }
    whole.1 = each.1 ∧ whole.2.graph = each.2.graph := by
  intro whole each
  have hc : ((block ss).outermost next g).Fresh := fresh_outermost hs
  cases ss with
  | nil =>
    simp only [whole, each, analyze, compile, compileAll, analyzeEach, List.foldr_nil]
    rw [Draft.resolve_of_slots_eq_nil rfl, Draft.settle_of_slots_eq_nil rfl]
    exact ⟨rfl, rfl⟩
  | cons s rest =>
    obtain ⟨hentry, hd⟩ := relatedWith_cons (s := s)
      (relatedWith_analyzeEach hc (nodup_labels_of_cons hs) (.single mem_parts_block_cons))
    have hresolve {p q : PointId} := hc.resolve_eq (p := p) (q := q) hcycles hd
    exact ⟨hresolve hentry, hd.graph_settle_eq fun _ _ => hresolve⟩

/-- In `a: f(); goto b; b: goto a` control comes in at the call and comes back to it. -/
theorem analyze_block_eq_backward :
    let ss : List Stmt := [.labeled "a" (.expr (.call (.name "f") [])), .jump .goTo (some "b"),
      .labeled "b" (.jump .goTo (some "a"))]
    let c := (block ss).outermost 0 .exit
    (block ss).labels.Nodup ∧
      (∀ l m, Relation.TransGen c.Forwards l m → Relation.TransGen c.Forwards m l → l = m) ∧
      ((block ss).analyze 0 { graph := .exit }).1 = (analyzeEach ss 0 { graph := .exit }).1 ∧
      ((block ss).analyze 0 { graph := .exit }).2.graph =
        (analyzeEach ss 0 { graph := .exit }).2.graph := by
  intro ss c
  have hs : (block ss).labels.Nodup := by decide
  have hc : c.Fresh := fresh_outermost hs
  have hforwards {l m : String} (h : c.Forwards l m) : l = "b" := by
    obtain ⟨p, hentry, hjump⟩ := h
    have hentries : c.after.entries = [("a", 3), ("b", 1)] := by decide
    have hslots : c.after.slots = [("b", 2), ("a", 1)] := by decide
    have hl := hc.mem_entries_iff.2 hentry
    have hm := hc.mem_slots_iff.2 hjump
    simp only [hentries, hslots, List.mem_cons, Prod.mk.injEq, List.not_mem_nil, or_false] at hl hm
    rcases hl with ⟨rfl, rfl⟩ | ⟨rfl, -⟩
    · simp at hm
    · rfl
  have hcycles : ∀ l m, Relation.TransGen c.Forwards l m → Relation.TransGen c.Forwards m l →
      l = m := by
    intro l m hlm hml
    obtain ⟨_, hl, -⟩ := Relation.TransGen.head'_iff.1 hlm
    obtain ⟨_, hm, -⟩ := Relation.TransGen.head'_iff.1 hml
    rw [hforwards hl, hforwards hm]
  exact ⟨hs, hcycles, analyze_block_eq ss hs .exit 0 hcycles⟩

/-- No label of `goto a; a: ; goto b; b: ; goto a` stands before a jump, but the labels lead to each
other, and where control comes in depends on when they were followed. -/
theorem analyze_block_ne :
    let ss : List Stmt := [.jump .goTo (some "a"), .labeled "a" .empty, .jump .goTo (some "b"),
      .labeled "b" .empty, .jump .goTo (some "a")]
    (block ss).labels.Nodup ∧ (∀ l m, ¬ ((block ss).outermost 0 .exit).Relays l m) ∧
      (∀ i, ∀ p ∈ FlowGraph.exit.successors i, p < FlowGraph.exit.size) ∧ 0 < FlowGraph.exit.size ∧
      ((block ss).analyze 0 { graph := .exit }).1 = 2 ∧
      (analyzeEach ss 0 { graph := .exit }).1 = 1 := by
  intro ss
  refine ⟨by decide, fun l m => ?_, fun i p hp => ?_, by decide, by decide, by decide +kernel⟩
  · simp [ss, outermost, Site.parts, Site.relays_iff (c := ⟨_, _, .block _, _, _⟩),
      Site.relays_iff (c := ⟨_, _, .jump _ _, _, _⟩), Site.relays_iff (c := ⟨_, _, .empty, _, _⟩),
      Site.relays_iff (c := ⟨_, _, .labeled _ _, _, _⟩)]
  · cases i <;> simp [FlowGraph.successors, FlowGraph.get?, FlowGraph.exit, Point.successors] at hp

end Stmt

end Staged
