import Staged.Proofs.Graph.Embedding
import Mathlib.Logic.Relation

/-!
What becomes of the parts of a statement when it is compiled. A part is compiled inside certain
loops, against the point after it and on top of the draft that the parts before it left. The tables
of the draft hold exactly the jumps and the labelled statements among the parts.
-/

namespace Staged

/-- A statement with all that compiling it depends on. -/
structure Site where
  loops : List Loop
  label : Option String
  stmt : Stmt
  next : PointId
  draft : Draft

namespace Site

/-- The point that runs the statement, as long as no jump is settled. -/
def entry (c : Site) : PointId := (Stmt.compile c.loops c.label c.stmt c.next c.draft).1

/-- The draft that compiling the statement leaves. -/
def after (c : Site) : Draft := (Stmt.compile c.loops c.label c.stmt c.next c.draft).2

/-- The parts that a statement is compiled from, in the order in which they are compiled. -/
def parts : Site → List Site
  | ⟨loops, _, .labeled label body, next, d⟩ => [⟨loops, some label, body, next, d⟩]
  | ⟨loops, _, .block (s :: rest), next, d⟩ =>
    let rest : Site := ⟨loops, none, .block rest, next, d⟩
    [rest, ⟨loops, none, s, rest.entry, rest.after⟩]
  | ⟨loops, _, .ifElse init test body otherwise, next, d⟩ =>
    let body : Site := ⟨loops, none, body, next, d⟩
    let otherwise : Site := ⟨loops, none, otherwise.getD .empty, next, body.after⟩
    let (branch, d) := otherwise.after.add (.branch (some test) body.entry otherwise.entry)
    [body, otherwise, ⟨loops, none, init.getD .empty, branch, d⟩]
  | ⟨loops, label, .loop init test post body, next, d⟩ =>
    let (head, d) := d.add (.branch test next next)
    let post : Site := ⟨loops, none, post.getD .empty, head, d⟩
    let body : Site := ⟨⟨label, head, next⟩ :: loops, none, body, post.entry, post.after⟩
    [post, body, ⟨loops, none, init.getD .empty, head, body.after.aimTrue head body.entry⟩]
  | _ => []

/-- Compiling `c` compiles `part`. -/
def Has (c part : Site) : Prop := Relation.ReflTransGen (fun c part => part ∈ c.parts) c part

/-- A jump to `label` in `c` is compiled to `p`. -/
def JumpsTo (c : Site) (label : String) (p : PointId) : Prop :=
  ∃ part, c.Has part ∧ part.stmt = .jump .goTo (some label) ∧ part.entry = p

/-- A statement with the label `label` in `c` is compiled to `p`. -/
def EntersAt (c : Site) (label : String) (p : PointId) : Prop :=
  ∃ part, c.Has part ∧ (∃ body, part.stmt = .labeled label body) ∧ part.entry = p

variable {c : Site} {label : String} {p : PointId}

lemma has_iff {part : Site} : c.Has part ↔ part = c ∨ ∃ a ∈ c.parts, a.Has part := by
  rw [Has, Relation.ReflTransGen.cases_head_iff, eq_comm]
  rfl

lemma jumpsTo_iff : c.JumpsTo label p ↔
    (c.stmt = .jump .goTo (some label) ∧ c.entry = p) ∨ ∃ a ∈ c.parts, a.JumpsTo label p := by
  simp only [JumpsTo, has_iff (c := c)]
  grind

lemma entersAt_iff : c.EntersAt label p ↔
    ((∃ body, c.stmt = .labeled label body) ∧ c.entry = p) ∨
      ∃ a ∈ c.parts, a.EntersAt label p := by
  simp only [EntersAt, has_iff (c := c)]
  grind

end Site

/-! ### The tables of a draft -/

lemma mem_of_lookup_eq_some {α β : Type} [BEq α] [LawfulBEq α] {table : List (α × β)} {a : α}
    {b : β} (h : table.lookup a = some b) : (a, b) ∈ table := by
  obtain ⟨before, after, heq, -⟩ := List.lookup_eq_some_iff.1 h
  simp [heq]

namespace Draft

/-- Each label has one placeholder, and the point there tells the label. -/
structure Tidy (d : Draft) : Prop where
  lookup_slots : ∀ label p, (label, p) ∈ d.slots → d.slots.lookup label = some p
  get?_slots : ∀ label p, (label, p) ∈ d.slots →
    d.graph.get? p = some (.unsupported (.jump .goTo (some label)))

/-- On the way from one draft to another, these jumps and these labelled statements come into the
tables, and these labels are defined. -/
structure Records (jumps enters : String → PointId → Prop) (labels : List String)
    (d d' : Draft) : Prop where
  tidy : d.Tidy → d'.Tidy
  lookup_slots : ∀ label p,
    d'.slots.lookup label = some p ↔ d.slots.lookup label = some p ∨ jumps label p
  mem_entries : ∀ label p, (label, p) ∈ d'.entries ↔ (label, p) ∈ d.entries ∨ enters label p
  count_entries : ∀ label,
    (d'.entries.map Prod.fst).count label =
      (d.entries.map Prod.fst).count label + labels.count label

variable {d d' d'' : Draft} {jumps jumps' enters enters' : String → PointId → Prop}
  {labels labels' : List String}

lemma Tidy.eq_of_mem (h : d.Tidy) {label label' : String} {p : PointId}
    (hp : (label, p) ∈ d.slots) (hp' : (label', p) ∈ d.slots) : label = label' := by
  have heq := (h.get?_slots label p hp).symm.trans (h.get?_slots label' p hp')
  simpa using heq

lemma get?_add_of_eq_some {point point' : Point} {p : PointId}
    (h : d.graph.get? p = some point') : (d.add point).2.graph.get? p = some point' := by
  have hne : p ≠ d.graph.size := by
    rintro rfl
    simp at h
  simpa [add, hne] using h

namespace Records

lemma trans (h : d.Records jumps enters labels d') (h' : d'.Records jumps' enters' labels' d'') :
    d.Records (fun l p => jumps l p ∨ jumps' l p) (fun l p => enters l p ∨ enters' l p)
      (labels ++ labels') d'' where
  tidy hd := h'.tidy (h.tidy hd)
  lookup_slots label p := by rw [h'.lookup_slots, h.lookup_slots, or_assoc]
  mem_entries label p := by rw [h'.mem_entries, h.mem_entries, or_assoc]
  count_entries label := by
    rw [h'.count_entries, h.count_entries, List.count_append, Nat.add_assoc]

lemma congr (h : d.Records jumps enters labels d') (hjumps : ∀ l p, jumps l p ↔ jumps' l p)
    (henters : ∀ l p, enters l p ↔ enters' l p)
    (hlabels : ∀ l, labels.count l = labels'.count l) : d.Records jumps' enters' labels' d' where
  tidy := h.tidy
  lookup_slots label p := by rw [h.lookup_slots, hjumps]
  mem_entries label p := by rw [h.mem_entries, henters]
  count_entries label := by rw [h.count_entries, hlabels]

end Records

/-- Nothing comes into the tables. -/
abbrev Idle (d d' : Draft) : Prop := d.Records (fun _ _ => False) (fun _ _ => False) [] d'

namespace Idle

/-- What leaves the tables and the placeholders as they are is idle. -/
lemma of_eq (hslots : d'.slots = d.slots) (hentries : d'.entries = d.entries)
    (hget? : ∀ p s, d.graph.get? p = some (.unsupported s) →
      d'.graph.get? p = some (.unsupported s)) :
    d.Idle d' where
  tidy hd := by
    refine ⟨fun label p hp => ?_, fun label p hp => ?_⟩ <;> rw [hslots] at *
    · exact hd.lookup_slots label p hp
    · exact hget? p _ (hd.get?_slots label p hp)
  lookup_slots := by simp [hslots]
  mem_entries := by simp [hentries]
  count_entries := by simp [hentries]

lemma refl (d : Draft) : d.Idle d := of_eq rfl rfl fun _ _ => id

lemma add (d : Draft) (point : Point) : d.Idle (d.add point).2 :=
  of_eq rfl rfl fun _ _ => get?_add_of_eq_some

lemma aimTrue (d : Draft) (p target : PointId) : d.Idle (d.aimTrue p target) := by
  refine of_eq rfl rfl fun q s hq => ?_
  rw [FlowGraph.get?] at hq
  by_cases hpq : p = q
  · subst hpq
    simp [Draft.aimTrue, FlowGraph.get?, Array.getElem?_modify, hq]
  · rwa [get?_aimTrue_of_ne d target hpq]

end Idle

namespace Records

lemma enter (d : Draft) (label : String) (entry : PointId) :
    d.Records (fun _ _ => False) (fun l p => l = label ∧ p = entry) [label]
      (d.enter label entry) where
  tidy hd := ⟨hd.lookup_slots, hd.get?_slots⟩
  lookup_slots := by simp [Draft.enter]
  mem_entries := by simp [Draft.enter, or_comm]
  count_entries l := by simp [Draft.enter, List.count_cons]

/-- A placeholder is made only for a label that has none. -/
lemma slot (d : Draft) (label : String) :
    d.Records (fun l p => l = label ∧ p = (d.slot label).1) (fun _ _ => False) []
      (d.slot label).2 := by
  rcases hp : d.slots.lookup label with _ | p
  · have hslot : d.slot label = (d.graph.size,
        { (d.add (.unsupported (.jump .goTo (some label)))).2 with
          slots := (label, d.graph.size) :: d.slots }) := by
      simp [Draft.slot, hp, Draft.add]
    rw [hslot]
    refine ⟨fun hd => ⟨fun l q hq => ?_, fun l q hq => ?_⟩, fun l q => ?_, by simp [Draft.add],
      by simp [Draft.add]⟩
    · rcases List.mem_cons.1 hq with heq | hq
      · obtain ⟨rfl, rfl⟩ := Prod.mk.inj heq
        simp
      · have hlookup := hd.lookup_slots l q hq
        have hne : l ≠ label := by
          rintro rfl
          simp [hp] at hlookup
        simpa [List.lookup_cons, beq_eq_false_iff_ne.2 hne] using hlookup
    · rcases List.mem_cons.1 hq with heq | hq
      · obtain ⟨rfl, rfl⟩ := Prod.mk.inj heq
        exact get?_add d _
      · exact get?_add_of_eq_some (hd.get?_slots l q hq)
    · by_cases hl : l = label
      · subst hl
        simp [hp, eq_comm]
      · simp [List.lookup_cons, beq_eq_false_iff_ne.2 hl, hl]
  · have hslot : d.slot label = (p, d) := by simp [Draft.slot, hp]
    rw [hslot]
    refine ⟨id, fun l q => ⟨.inl, ?_⟩, by simp, by simp⟩
    rintro (h | ⟨rfl, rfl⟩)
    · exact h
    · exact hp

end Records

end Draft

namespace Site

/-- Compiling records the jumps and the labelled statements among the parts. -/
def Recorded (c : Site) : Prop := c.draft.Records c.JumpsTo c.EntersAt c.stmt.labels c.after

variable {loops : List Loop} {label : Option String} {s : Stmt} {next : PointId} {d : Draft}

/-- The parts are compiled one after the other, and between them the tables stay as they are. -/
def Chain : (d : Draft) → List Site → (d' : Draft) → Prop
  | d, [], d' => d.Idle d'
  | d, a :: rest, d' => d.Idle a.draft ∧ Chain a.after rest d'

lemma Chain.records {d d' : Draft} {as : List Site} (h : Chain d as d')
    (has : ∀ a ∈ as, a.Recorded) :
    d.Records (fun l p => ∃ a ∈ as, a.JumpsTo l p) (fun l p => ∃ a ∈ as, a.EntersAt l p)
      (as.flatMap fun a => a.stmt.labels) d' := by
  induction as generalizing d with
  | nil => exact h.congr (by simp) (by simp) (by simp)
  | cons a rest ih =>
    rw [List.forall_mem_cons] at has
    refine (h.1.trans (has.1.trans (ih h.2 has.2))).congr ?_ ?_ ?_ <;> simp

/-- Only jumps to labels and labelled statements record anything themselves. -/
lemma recorded_of_chain {c : Site} (has : ∀ a ∈ c.parts, a.Recorded)
    (hjump : ∀ l, c.stmt ≠ .jump .goTo (some l)) (hlabeled : ∀ l body, c.stmt ≠ .labeled l body)
    (h : Chain c.draft c.parts c.after)
    (hlabels : ∀ l, (c.parts.flatMap fun a => a.stmt.labels).count l = c.stmt.labels.count l) :
    c.Recorded := by
  refine (h.records has).congr (fun l p => ?_) (fun l p => ?_) hlabels
  · simp [jumpsTo_iff (c := c), hjump]
  · simp [entersAt_iff (c := c), hlabeled]

variable {loops : List Loop} {label : Option String} {s : Stmt} {next : PointId} {d : Draft}

lemma recorded_leaf (hparts : parts ⟨loops, label, s, next, d⟩ = [])
    (hjump : ∀ l, s ≠ .jump .goTo (some l)) (hlabels : s.labels = [])
    (h : (∃ p, Stmt.compile loops label s next d = (p, d)) ∨
      ∃ point, Stmt.compile loops label s next d = d.add point) :
    Recorded ⟨loops, label, s, next, d⟩ := by
  refine recorded_of_chain (by simp [hparts]) hjump ?_ ?_ (by simp [hparts, hlabels])
  · rintro l body rfl
    exact List.cons_ne_nil _ _ hlabels
  · rw [hparts, after]
    obtain ⟨p, h⟩ | ⟨point, h⟩ := h <;> rw [h]
    · exact .refl d
    · exact .add d point

lemma recorded_assign (targets values : List Expr) (define : Bool) (op : Option BinaryOp) :
    Recorded ⟨loops, label, .assign targets values define op, next, d⟩ := by
  refine recorded_leaf rfl (by simp) rfl (.inr ?_)
  rcases op with _ | op
  · exact ⟨_, by rw [Stmt.compile]⟩
  · by_cases hone : ∃ target value, targets = [target] ∧ values = [value]
    · obtain ⟨target, value, rfl, rfl⟩ := hone
      exact ⟨_, by rw [Stmt.compile]⟩
    · refine ⟨.unsupported (.assign targets values define (some op)), ?_⟩
      rw [Stmt.compile]
      exact fun target value ht hv => hone ⟨target, value, ht, hv⟩

lemma recorded_goTo (target : String) :
    Recorded ⟨loops, label, .jump .goTo (some target), next, d⟩ := by
  have hcompile : Stmt.compile loops label (.jump .goTo (some target)) next d = d.slot target := by
    rw [Stmt.compile, Stmt.jumpTo]
  rw [Recorded, after, hcompile]
  refine (Draft.Records.slot d target).congr (fun l p => .trans ?_ jumpsTo_iff.symm)
    (fun l p => .trans ?_ entersAt_iff.symm) fun _ => rfl
  · simp [entry, hcompile, parts, eq_comm]
  · simp [parts]

lemma recorded_jump (kind : JumpKind) (target : Option String) :
    Recorded ⟨loops, label, .jump kind target, next, d⟩ := by
  by_cases hgoto : ∃ l, kind = .goTo ∧ target = some l
  · obtain ⟨l, rfl, rfl⟩ := hgoto
    exact recorded_goTo l
  · refine recorded_leaf rfl (fun l hl => ?_) rfl ?_
    · obtain ⟨hkind, htarget⟩ := Stmt.jump.inj hl
      exact hgoto ⟨l, hkind, htarget⟩
    · rw [Stmt.compile]
      unfold Stmt.jumpTo
      split
      · exact absurd ⟨_, rfl, rfl⟩ hgoto
      · split
        · exact .inl ⟨_, rfl⟩
        · exact .inr ⟨_, rfl⟩
      · split
        · exact .inl ⟨_, rfl⟩
        · exact .inr ⟨_, rfl⟩
      · exact .inr ⟨_, rfl⟩

lemma recorded_labeled {body : Stmt} {l : String}
    (hbody : Recorded ⟨loops, some l, body, next, d⟩) :
    Recorded ⟨loops, label, .labeled l body, next, d⟩ := by
  have hentry : entry ⟨loops, label, .labeled l body, next, d⟩ =
      entry ⟨loops, some l, body, next, d⟩ := by
    simp only [entry, Stmt.compile]
  have hafter : after ⟨loops, label, .labeled l body, next, d⟩ =
      (after ⟨loops, some l, body, next, d⟩).enter l (entry ⟨loops, some l, body, next, d⟩) := by
    simp only [after, entry, Stmt.compile]
  rw [Recorded, hafter]
  refine (hbody.trans (.enter _ _ _)).congr (fun m p => .trans ?_ jumpsTo_iff.symm)
    (fun m p => .trans ?_ entersAt_iff.symm) (fun m => ?_)
  · simp [parts]
  · simp [parts, hentry, or_comm, eq_comm]
  · change _ = (l :: body.labels).count m
    simp [List.count_cons]

/-- Compiling a statement records the jumps and the labelled statements among its parts, and the
labels that it defines. -/
theorem recorded (c : Site) : c.Recorded := by
  obtain ⟨loops, label, s, next, d⟩ := c
  induction s generalizing loops label next d with
  | empty =>
    exact recorded_leaf rfl (by simp) rfl (.inl ⟨_, by rw [Stmt.compile]⟩)
  | expr e =>
    exact recorded_leaf rfl (by simp) rfl (.inr ⟨_, by rw [Stmt.compile]⟩)
  | assign targets values define op => exact recorded_assign targets values define op
  | count target up =>
    exact recorded_leaf rfl (by simp) rfl (.inr ⟨_, by rw [Stmt.compile]⟩)
  | nil =>
    exact recorded_leaf rfl (by simp) rfl (.inl ⟨_, by rw [Stmt.compile, Stmt.compileAll]⟩)
  | cons s rest ihs ihrest =>
    refine recorded_of_chain (by simp [parts, ihs, ihrest]) (by simp) (by simp) ?_ (fun l => ?_)
    · simp only [after, Stmt.compile, Stmt.compileAll]
      exact ⟨.refl _, .refl _, .refl _⟩
    · simp [parts, Stmt.labels, Stmt.labelsAll, Nat.add_comm]
  | ifElse init test body otherwise ihinit ihbody ihelse =>
    refine recorded_of_chain (by simp [parts, ihinit, ihbody, ihelse]) (by simp) (by simp) ?_
      (fun l => ?_)
    · simp only [after, Stmt.compile, Stmt.compileOption_eq]
      exact ⟨.refl _, .refl _, .add _ _, .refl _⟩
    · simp [parts, Stmt.labels, Stmt.labelsOption_eq]
      omega
  | loop init test post body ihinit ihpost ihbody =>
    refine recorded_of_chain (by simp [parts, ihinit, ihpost, ihbody]) (by simp) (by simp) ?_
      (fun l => ?_)
    · simp only [after, Stmt.compile, Stmt.compileOption_eq]
      exact ⟨.add _ _, .refl _, .aimTrue _ _ _, .refl _⟩
    · simp [parts, Stmt.labels, Stmt.labelsOption_eq]
      omega
  | jump kind target => exact recorded_jump kind target
  | ret results =>
    exact recorded_leaf rfl (by simp) rfl (.inr ⟨_, by rw [Stmt.compile]⟩)
  | labeled l body ih => exact recorded_labeled (ih loops (some l) next d)
  | other kind =>
    exact recorded_leaf rfl (by simp) rfl (.inr ⟨_, by rw [Stmt.compile]⟩)

/-- A placeholder is made for each label that the statement goes to, and for no other. -/
theorem exists_jumpsTo_iff {c : Site} {l : String} :
    (∃ p, c.JumpsTo l p) ↔ l ∈ c.stmt.gotos := by
  have hparts (c : Site) : (∃ p, c.JumpsTo l p) ↔
      c.stmt = .jump .goTo (some l) ∨ ∃ a ∈ c.parts, ∃ p, a.JumpsTo l p := by
    simp only [jumpsTo_iff (c := c)]
    grind
  obtain ⟨loops, label, s, next, d⟩ := c
  induction s generalizing loops label next d with
  | cons s rest ihs ihrest =>
    rw [hparts]
    simp [parts, ihs, ihrest, Stmt.gotos_block_cons, or_comm]
  | ifElse init test body otherwise ihinit ihbody ihelse =>
    rw [hparts]
    simp [parts, ihinit, ihbody, ihelse, Stmt.gotos_ifElse, or_comm, or_left_comm]
  | loop init test post body ihinit ihpost ihbody =>
    rw [hparts]
    simp [parts, ihinit, ihpost, ihbody, Stmt.gotos_loop, or_comm, or_assoc, or_left_comm]
  | jump kind target =>
    rw [hparts]
    cases kind <;> simp [parts, Stmt.gotos]
  | labeled label body ih =>
    rw [hparts]
    simp [parts, ih, Stmt.gotos]
  | nil =>
    rw [hparts]
    simp [parts, Stmt.gotos, Stmt.gotosAll]
  | empty | expr | assign | count | ret | other =>
    rw [hparts]
    simp [parts, Stmt.gotos]

end Site

end Staged
