import Staged.Graph.Compilation
import Staged.Proofs.Graph.Structured
import Staged.Proofs.Stmt

/-!
Where the points of a compiled statement lie in a graph. The graph may be larger than the draft that
the statement was compiled to, and the test of a loop is read as it is aimed in the end, so what is
said here of a statement stays true while the statements around it are compiled.
-/

namespace Staged

namespace FlowGraph

/-- The point at `p`, where `exit` counts as a place outside the graph. -/
def inner (g : FlowGraph) (exit p : PointId) : Option Point := if p = exit then none else g.get? p

/-- The graph has the points of a statement inside the loops `loops`, directly behind `label`:
control comes in at `entry` and goes to `next` when the statement is done. -/
inductive Embeds (g : FlowGraph) (exit : PointId) : (loops : List Loop) →
    (label : Option String) → Stmt → (entry next : PointId) → Prop where
  | empty {loops l next} : Embeds g exit loops l .empty next next
  | expr {loops l e p next} (hp : g.inner exit p = some (.evaluate e next)) :
      Embeds g exit loops l (.expr e) p next
  | assign {loops l targets values define p next}
      (hp : g.inner exit p = some (.assign targets values define next)) :
      Embeds g exit loops l (.assign targets values define none) p next
  | update {loops l target value define op p next}
      (hp : g.inner exit p = some (.assign [target] [.binary op target value.operand] false next)) :
      Embeds g exit loops l (.assign [target] [value] define (some op)) p next
  | count {loops l target up p next}
      (hp : g.inner exit p = some (.assign [target]
        [.binary (if up then .add else .sub) target (.lit ⟨.int, "1"⟩)] false next)) :
      Embeds g exit loops l (.count target up) p next
  | ret {loops l results p next} (hp : g.inner exit p = some (.ret results)) :
      Embeds g exit loops l (.ret results) p next
  | stop {loops l s p next} (hs : s.Stops) (hp : g.inner exit p = some (.unsupported s)) :
      Embeds g exit loops l s p next
  | breakOut {loops l target loop next} (hloop : Loop.find? loops target = some loop) :
      Embeds g exit loops l (.jump .breakOut target) loop.out next
  | strayBreak {loops l target p next} (hloop : Loop.find? loops target = none)
      (hp : g.inner exit p = some (.unsupported (.jump .breakOut target))) :
      Embeds g exit loops l (.jump .breakOut target) p next
  | continueOn {loops l target loop next} (hloop : Loop.find? loops target = some loop) :
      Embeds g exit loops l (.jump .continueOn target) loop.next next
  | strayContinue {loops l target p next} (hloop : Loop.find? loops target = none)
      (hp : g.inner exit p = some (.unsupported (.jump .continueOn target))) :
      Embeds g exit loops l (.jump .continueOn target) p next
  | labeled {loops l label s p next} (hs : Embeds g exit loops (some label) s p next) :
      Embeds g exit loops l (.labeled label s) p next
  | nil {loops l next} : Embeds g exit loops l (.block []) next next
  | cons {loops l s rest p q next} (hs : Embeds g exit loops none s p q)
      (hrest : Embeds g exit loops none (.block rest) q next) :
      Embeds g exit loops l (.block (s :: rest)) p next
  | ifElse {loops l init test body otherwise p branch ifTrue ifFalse next}
      (hinit : Embeds g exit loops none (init.getD .empty) p branch)
      (hbranch : g.inner exit branch = some (.branch (some test) ifTrue ifFalse))
      (hbody : Embeds g exit loops none body ifTrue next)
      (helse : Embeds g exit loops none (otherwise.getD .empty) ifFalse next) :
      Embeds g exit loops l (.ifElse init test body otherwise) p next
  | loop {loops l init test post body p head first again next}
      (hinit : Embeds g exit loops none (init.getD .empty) p head)
      (hhead : g.inner exit head = some (.branch test first next))
      (hbody : Embeds g exit (⟨l, head, next⟩ :: loops) none body first again)
      (hpost : Embeds g exit loops none (post.getD .empty) again head) :
      Embeds g exit loops l (.loop init test post body) p next

namespace Embeds

variable {g : FlowGraph} {exit : PointId} {loops : List Loop} {l : Option String} {s : Stmt}
  {p next : PointId}

lemma eq_of_empty (h : g.Embeds exit loops l .empty p next) : p = next := by
  cases h with
  | empty => rfl
  | stop hs => cases hs

lemma of_stops (hs : s.Stops) (h : g.Embeds exit loops l s p next) :
    g.inner exit p = some (.unsupported s) := by
  cases hs with
  | update hmany =>
    cases h with
    | update => exact absurd ⟨rfl, rfl⟩ hmany
    | stop _ hp => exact hp
  | goTo => cases h with | stop _ hp => exact hp
  | fallThrough => cases h with | stop _ hp => exact hp
  | other => cases h with | stop _ hp => exact hp

lemma of_cons {rest : List Stmt} (h : g.Embeds exit loops l (.block (s :: rest)) p next) :
    ∃ q, g.Embeds exit loops none s p q ∧ g.Embeds exit loops none (.block rest) q next := by
  cases h with
  | cons hs hrest => exact ⟨_, hs, hrest⟩
  | stop hs => cases hs

variable {init : Stmt} {body : Stmt}

lemma of_ifElse {test : Expr} {otherwise : Option Stmt}
    (h : g.Embeds exit loops l (.ifElse none test body otherwise) p next) :
    ∃ ifTrue ifFalse, g.inner exit p = some (.branch (some test) ifTrue ifFalse) ∧
      g.Embeds exit loops none body ifTrue next ∧
      g.Embeds exit loops none (otherwise.getD .empty) ifFalse next := by
  cases h with
  | ifElse hinit hbranch hbody helse =>
    obtain rfl := hinit.eq_of_empty
    exact ⟨_, _, hbranch, hbody, helse⟩
  | stop hs => cases hs

lemma of_ifElse_init {test : Expr} {otherwise : Option Stmt}
    (h : g.Embeds exit loops l (.ifElse (some init) test body otherwise) p next) :
    ∃ branch, g.Embeds exit loops none init p branch ∧
      g.Embeds exit loops l (.ifElse none test body otherwise) branch next := by
  cases h with
  | ifElse hinit hbranch hbody helse => exact ⟨_, hinit, .ifElse .empty hbranch hbody helse⟩
  | stop hs => cases hs

lemma of_loop {test : Option Expr} {post : Option Stmt}
    (h : g.Embeds exit loops l (.loop none test post body) p next) :
    ∃ first again, g.inner exit p = some (.branch test first next) ∧
      g.Embeds exit (⟨l, p, next⟩ :: loops) none body first again ∧
      g.Embeds exit loops none (post.getD .empty) again p := by
  cases h with
  | loop hinit hhead hbody hpost =>
    obtain rfl := hinit.eq_of_empty
    exact ⟨_, _, hhead, hbody, hpost⟩
  | stop hs => cases hs

lemma of_loop_init {test : Option Expr} {post : Option Stmt}
    (h : g.Embeds exit loops l (.loop (some init) test post body) p next) :
    ∃ head, g.Embeds exit loops none init p head ∧
      g.Embeds exit loops l (.loop none test post body) head next := by
  cases h with
  | loop hinit hhead hbody hpost => exact ⟨_, hinit, .loop .empty hhead hbody hpost⟩
  | stop hs => cases hs

end Embeds

end FlowGraph

/-! ### Drafts that grow -/

namespace Draft

/-- What compiling a statement without a jump to a label does to a draft: it adds points. -/
structure Grows (d d' : Draft) : Prop where
  size_le : d.graph.size ≤ d'.graph.size
  get?_eq : ∀ p < d.graph.size, d'.graph.get? p = d.graph.get? p
  slots_eq : d'.slots = d.slots

variable {d d' d'' : Draft}

@[refl] lemma Grows.refl (d : Draft) : d.Grows d := ⟨Nat.le_refl _, fun _ _ => rfl, rfl⟩

lemma Grows.trans (h : d.Grows d') (h' : d'.Grows d'') : d.Grows d'' where
  size_le := Nat.le_trans h.size_le h'.size_le
  get?_eq p hp := by
    have hp' : p < d'.graph.size := Nat.lt_of_lt_of_le hp h.size_le
    rw [h'.get?_eq p hp', h.get?_eq p hp]
  slots_eq := h'.slots_eq.trans h.slots_eq

lemma grows_add (d : Draft) (point : Point) : d.Grows (d.add point).2 where
  size_le := by simp
  get?_eq p hp := by simp [add, Nat.ne_of_lt hp]
  slots_eq := rfl

lemma grows_enter (d : Draft) (label : String) (entry : PointId) : d.Grows (d.enter label entry) :=
  ⟨Nat.le_refl _, fun _ _ => rfl, rfl⟩

lemma get?_add (d : Draft) (point : Point) :
    (d.add point).2.graph.get? d.graph.size = some point := by
  simp [add]

lemma get?_aimTrue_of_ne (d : Draft) {p q : PointId} (target : PointId) (h : p ≠ q) :
    (d.aimTrue p target).graph.get? q = d.graph.get? q := by
  simp [aimTrue, FlowGraph.get?, Array.getElem?_modify, h]

lemma get?_aimTrue {d : Draft} {p ifTrue ifFalse : PointId} {test : Option Expr}
    (h : d.graph.get? p = some (.branch test ifTrue ifFalse)) (target : PointId) :
    (d.aimTrue p target).graph.get? p = some (.branch test target ifFalse) := by
  rw [FlowGraph.get?] at h
  simp [aimTrue, FlowGraph.get?, Array.getElem?_modify, h]

/-- Aiming a branch that was added later leaves the points of a draft where they are. -/
lemma Grows.aimTrue (h : d.Grows d') {p : PointId} (hp : d.graph.size ≤ p) (target : PointId) :
    d.Grows (d'.aimTrue p target) where
  size_le := by simpa using h.size_le
  get?_eq q hq := by
    have hne : p ≠ q := Nat.ne_of_gt (Nat.lt_of_lt_of_le hq hp)
    rw [get?_aimTrue_of_ne d' target hne, h.get?_eq q hq]
  slots_eq := h.slots_eq

/-- The graph has, and will keep, the points that `d'` has and `d` has not. -/
def Kept (g : FlowGraph) (exit : PointId) (d d' : Draft) : Prop :=
  ∀ p, d.graph.size ≤ p → p < d'.graph.size → g.inner exit p = d'.graph.get? p

variable {g : FlowGraph} {exit : PointId}

lemma Kept.left (h : Kept g exit d d'') (h' : d'.Grows d'') : Kept g exit d d' := by
  intro p hp hp'
  calc g.inner exit p = d''.graph.get? p := h p hp (Nat.lt_of_lt_of_le hp' h'.size_le)
    _ = d'.graph.get? p := h'.get?_eq p hp'

lemma Kept.right (h : Kept g exit d d'') (h' : d.Grows d') : Kept g exit d' d'' := by
  intro p hp hp'
  exact h p (Nat.le_trans h'.size_le hp) hp'

lemma Kept.of_aimTrue {p target : PointId} (h : Kept g exit d (d'.aimTrue p target))
    (hp : p < d.graph.size) : Kept g exit d d' := by
  intro q hq hq'
  have hne : p ≠ q := Nat.ne_of_lt (Nat.lt_of_lt_of_le hp hq)
  calc g.inner exit q = (d'.aimTrue p target).graph.get? q := h q hq (by simpa using hq')
    _ = d'.graph.get? q := get?_aimTrue_of_ne d' target hne

lemma Kept.inner_add {point : Point} (h : Kept g exit d (d.add point).2) :
    g.inner exit (d.add point).1 = some point :=
  (h _ (Nat.le_refl _) (by simp [add])).trans (get?_add d point)

/-! Without a jump to a label there is nothing to settle. -/

lemma resolve_of_slots_eq_nil (h : d.slots = []) (p : PointId) : d.resolve p = p := by
  simp [resolve, redirects, h, follow]

lemma settle_of_slots_eq_nil (h : d.slots = []) : d.settle = d := by
  have hredirect (point : Point) : point.redirect d.resolve = point := by
    cases point <;> simp [Point.redirect, resolve_of_slots_eq_nil h]
  simp [settle, hredirect]

end Draft

/-! ### Compiling -/

namespace Stmt

lemma compound_eq (target : Expr) (op : BinaryOp) (value : Expr) (next : PointId) :
    compound target op value next =
      .assign [target] [.binary op target value.operand] false next := by
  cases value <;> rfl

lemma graph_assign_and_ret (targets values results : List Expr) :
    (block [.assign targets values false none, .ret results]).graph =
      (2, ⟨#[.ret [], .ret results, .assign targets values false 1]⟩) := by
  simp [graph, analyze, compile, compileAll, Draft.add, FlowGraph.push, FlowGraph.exit,
    Draft.settle, Draft.resolve, Draft.redirects, Draft.follow, Point.redirect, FlowGraph.size]

variable {loops : List Loop} {l : Option String} {next : PointId} {d : Draft}

lemma compileOption_eq (s? : Option Stmt) :
    compileOption loops s? next d = compile loops none (s?.getD .empty) next d := by
  cases s? <;> simp [compileOption, compile]

/-- Compiling the statement made this result: the draft has grown, and a graph that keeps the new
points has the statement in it. -/
structure Compiles (loops : List Loop) (l : Option String) (s : Stmt) (next : PointId) (d : Draft)
    (r : PointId × Draft) : Prop where
  grows : d.Grows r.2
  embeds : ∀ g exit, Draft.Kept g exit d r.2 → g.Embeds exit loops l s r.1 next

/-- The statement is compiled like this wherever it stands. -/
def Compiled (s : Stmt) : Prop :=
  ∀ loops l next d, Compiles loops l s next d (compile loops l s next d)

lemma compiles_add {s : Stmt} {point : Point}
    (h : ∀ {g : FlowGraph} {exit p}, g.inner exit p = some point →
      g.Embeds exit loops l s p next) : Compiles loops l s next d (d.add point) where
  grows := d.grows_add point
  embeds _ _ hk := h hk.inner_add

lemma compiled_assign (targets values : List Expr) (define : Bool) (op : Option BinaryOp) :
    Compiled (.assign targets values define op) := by
  intro loops l next d
  cases op with
  | none =>
    rw [compile]
    exact compiles_add .assign
  | some op =>
    by_cases hone : ∃ target value, targets = [target] ∧ values = [value]
    · obtain ⟨target, value, rfl, rfl⟩ := hone
      rw [compile, compound_eq]
      exact compiles_add .update
    · have hmany : ∀ target value, targets = [target] → values = [value] → False :=
        fun target value ht hv => hone ⟨target, value, ht, hv⟩
      rw [compile]
      · refine compiles_add (.stop (.update fun hlen => ?_))
        obtain ⟨target, ht⟩ := List.length_eq_one_iff.1 hlen.1
        obtain ⟨value, hv⟩ := List.length_eq_one_iff.1 hlen.2
        exact hmany target value ht hv
      · exact hmany

lemma compiled_jump {kind : JumpKind} {label : Option String}
    (h : gotos (.jump kind label) = []) : Compiled (.jump kind label) := by
  intro loops l next d
  rw [compile]
  cases kind with
  | goTo =>
    cases label with
    | none => exact compiles_add (.stop .goTo)
    | some label => simp [gotos] at h
  | breakOut =>
    cases hloop : Loop.find? loops label with
    | none =>
      simp only [jumpTo, hloop]
      exact compiles_add (.strayBreak hloop)
    | some loop =>
      simp only [jumpTo, hloop]
      exact ⟨.refl d, fun _ _ _ => .breakOut hloop⟩
  | continueOn =>
    cases hloop : Loop.find? loops label with
    | none =>
      simp only [jumpTo, hloop]
      exact compiles_add (.strayContinue hloop)
    | some loop =>
      simp only [jumpTo, hloop]
      exact ⟨.refl d, fun _ _ _ => .continueOn hloop⟩
  | fallThrough => exact compiles_add (.stop .fallThrough)

lemma Compiled.labeled {body : Stmt} (hbody : Compiled body) (label : String) :
    Compiled (.labeled label body) := by
  intro loops l next d
  have hb := hbody loops (some label) next d
  rw [compile]
  refine ⟨hb.grows.trans (Draft.grows_enter _ _ _), fun g exit hk => ?_⟩
  exact .labeled (hb.embeds g exit (hk.left (Draft.grows_enter _ _ _)))

lemma Compiled.cons {s : Stmt} {rest : List Stmt} (hs : Compiled s)
    (hrest : Compiled (.block rest)) : Compiled (.block (s :: rest)) := by
  intro loops l next d
  have hr := hrest loops none next d
  rw [compile] at hr
  have hs := hs loops none (compileAll loops rest next d).1 (compileAll loops rest next d).2
  rw [compile, compileAll]
  refine ⟨hr.grows.trans hs.grows, fun g exit hk => ?_⟩
  exact .cons (hs.embeds g exit (hk.right hr.grows)) (hr.embeds g exit (hk.left hs.grows))

lemma Compiled.ifElse {init : Option Stmt} {body : Stmt} {otherwise : Option Stmt}
    (hinit : Compiled (init.getD .empty)) (hbody : Compiled body)
    (helse : Compiled (otherwise.getD .empty)) (test : Expr) :
    Compiled (.ifElse init test body otherwise) := by
  intro loops l next d
  simp only [compile, compileOption_eq]
  have hb := hbody loops none next d
  generalize compile loops none body next d = r₁ at hb ⊢
  have he := helse loops none next r₁.2
  generalize compile loops none (otherwise.getD .empty) next r₁.2 = r₂ at he ⊢
  have hadd := r₂.2.grows_add (.branch (some test) r₁.1 r₂.1)
  have hi := hinit loops none (r₂.2.add (.branch (some test) r₁.1 r₂.1)).1
    (r₂.2.add (.branch (some test) r₁.1 r₂.1)).2
  have h₁ : r₁.2.Grows _ := he.grows.trans (hadd.trans hi.grows)
  have h₂ : r₂.2.Grows _ := hadd.trans hi.grows
  refine ⟨hb.grows.trans h₁, fun g exit hk => ?_⟩
  have hk₁ := hk.right hb.grows
  have hk₂ := hk₁.right he.grows
  exact .ifElse (hi.embeds g exit (hk₂.right hadd)) (hk₂.left hi.grows).inner_add
    (hb.embeds g exit (hk.left h₁)) (he.embeds g exit (hk₁.left h₂))

lemma Compiled.loop {init post : Option Stmt} {body : Stmt} (hinit : Compiled (init.getD .empty))
    (hpost : Compiled (post.getD .empty)) (hbody : Compiled body) (test : Option Expr) :
    Compiled (.loop init test post body) := by
  intro loops l next d
  simp only [compile, compileOption_eq]
  have hadd := d.grows_add (.branch test next next)
  have hhead := Draft.get?_add d (.branch test next next)
  generalize (d.add (.branch test next next)).2 = d₁ at hadd hhead ⊢
  dsimp only [Draft.add]
  have hlt : d.graph.size < d₁.graph.size := (Array.getElem?_eq_some_iff.1 hhead).1
  have hp := hpost loops none d.graph.size d₁
  generalize compile loops none (post.getD .empty) d.graph.size d₁ = r₂ at hp ⊢
  have hb := hbody (⟨l, d.graph.size, next⟩ :: loops) none r₂.1 r₂.2
  generalize compile (⟨l, d.graph.size, next⟩ :: loops) none body r₂.1 r₂.2 = r₃ at hb ⊢
  have hi := hinit loops none d.graph.size (r₃.2.aimTrue d.graph.size r₃.1)
  have h₃ : d₁.Grows r₃.2 := hp.grows.trans hb.grows
  have h₄ : d.Grows (r₃.2.aimTrue d.graph.size r₃.1) :=
    (hadd.trans h₃).aimTrue (Nat.le_refl _) r₃.1
  refine ⟨h₄.trans hi.grows, fun g exit hk => ?_⟩
  have hk₄ := hk.left hi.grows
  have hk₁ : Draft.Kept g exit d₁ r₃.2 := (hk₄.right hadd).of_aimTrue hlt
  -- the test is the one point that is not read as it was added
  have haim : g.inner exit d.graph.size = some (.branch test r₃.1 next) := by
    rw [hk₄ _ (Nat.le_refl _) (Nat.lt_of_lt_of_le hlt (by simpa using h₃.size_le))]
    exact Draft.get?_aimTrue ((h₃.get?_eq _ hlt).trans hhead) r₃.1
  exact .loop (hi.embeds g exit (hk.right h₄)) haim
    (hb.embeds g exit (hk₁.right hp.grows)) (hp.embeds g exit (hk₁.left hb.grows))

/-- A statement without a jump to a label lies, once compiled, in every graph that keeps its
points. -/
theorem compiled (s : Stmt) (h : s.gotos = []) : Compiled s := by
  induction s with
  | empty =>
    intro loops l next d
    rw [compile]
    exact ⟨.refl d, fun _ _ _ => .empty⟩
  | expr e =>
    intro loops l next d
    rw [compile]
    exact compiles_add .expr
  | assign targets values define op => exact compiled_assign targets values define op
  | count target up =>
    intro loops l next d
    rw [compile, compound_eq]
    exact compiles_add .count
  | nil =>
    intro loops l next d
    rw [compile, compileAll]
    exact ⟨.refl d, fun _ _ _ => .nil⟩
  | cons s rest ihs ihrest =>
    rw [gotos_block_cons, List.append_eq_nil_iff] at h
    exact (ihs h.1).cons (ihrest h.2)
  | ifElse init test body otherwise ihinit ihbody ihelse =>
    simp only [gotos_ifElse, List.append_eq_nil_iff] at h
    exact (ihinit h.1.1).ifElse (ihbody h.1.2) (ihelse h.2) test
  | loop init test post body ihinit ihpost ihbody =>
    simp only [gotos_loop, List.append_eq_nil_iff] at h
    exact (ihinit h.1.1).loop (ihpost h.1.2) (ihbody h.2) test
  | jump kind label => exact compiled_jump h
  | ret results =>
    intro loops l next d
    rw [compile]
    exact compiles_add .ret
  | labeled label body ih => exact (ih h).labeled label
  | other kind =>
    intro loops l next d
    rw [compile]
    exact compiles_add (.stop .other)

end Stmt

end Staged
