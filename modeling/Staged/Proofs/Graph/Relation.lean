import Staged.Proofs.Graph.Embedding
import Mathlib.Data.List.Forall2

/-!
Two compilations of one statement that are given different handles. Compiling stores handles and
never looks at them, so handles that are related stay so: the same points come to the same places,
and the handles of a point are related to those of its counterpart.
-/

namespace Staged

/-- The same point up to its handles, which are related by `R`. -/
inductive Point.Related (R : PointId → PointId → Prop) : Point → Point → Prop where
  | evaluate (e) {next next'} (h : R next next') : Related R (.evaluate e next) (.evaluate e next')
  | assign (targets values define) {next next'} (h : R next next') :
      Related R (.assign targets values define next) (.assign targets values define next')
  | branch (test) {ifTrue ifTrue' ifFalse ifFalse'} (htrue : R ifTrue ifTrue')
      (hfalse : R ifFalse ifFalse') :
      Related R (.branch test ifTrue ifFalse) (.branch test ifTrue' ifFalse')
  | ret (results) : Related R (.ret results) (.ret results)
  | unsupported (s) : Related R (.unsupported s) (.unsupported s)

structure Loop.Related (R : PointId → PointId → Prop) (l l' : Loop) : Prop where
  label_eq : l'.label = l.label
  next : R l.next l'.next
  out : R l.out l'.out

structure Draft.Related (R : PointId → PointId → Prop) (d d' : Draft) : Prop where
  size_eq : d'.graph.size = d.graph.size
  point : ∀ p a a', d.graph.get? p = some a → d'.graph.get? p = some a' → a.Related R a'
  slots_eq : d'.slots = d.slots
  entries : List.Forall₂ (fun e e' => e'.1 = e.1 ∧ R e.2 e'.2) d.entries d'.entries

/-- Two results of compiling: the entries are related, and so are the drafts. -/
def Draft.RelatedWith (R : PointId → PointId → Prop) (r r' : PointId × Draft) : Prop :=
  R r.1 r'.1 ∧ r.2.Related R r'.2

variable {R : PointId → PointId → Prop}

namespace Point

lemma related_refl (hR : ∀ p, R p p) (a : Point) : a.Related R a := by
  cases a with
  | evaluate e next => exact .evaluate e (hR next)
  | assign targets values define next => exact .assign targets values define (hR next)
  | branch test ifTrue ifFalse => exact .branch test (hR ifTrue) (hR ifFalse)
  | ret results => exact .ret results
  | unsupported s => exact .unsupported s

namespace Related

variable {a a' : Point} {f : PointId → PointId}

lemma redirect_right (h : a.Related R a') (hf : ∀ p q, R p q → R p (f q)) :
    a.Related R (a'.redirect f) := by
  cases h with
  | evaluate e h => exact .evaluate e (hf _ _ h)
  | assign targets values define h => exact .assign targets values define (hf _ _ h)
  | branch test htrue hfalse => exact .branch test (hf _ _ htrue) (hf _ _ hfalse)
  | ret results => exact .ret results
  | unsupported s => exact .unsupported s

/-- What sends related handles to one place makes related points equal. -/
lemma redirect_eq (h : a.Related R a') {f' : PointId → PointId} (hf : ∀ p q, R p q → f p = f' q) :
    a.redirect f = a'.redirect f' := by
  cases h with
  | evaluate e h | assign targets values define h => simp [redirect, hf _ _ h]
  | branch test htrue hfalse => simp [redirect, hf _ _ htrue, hf _ _ hfalse]
  | ret results | unsupported s => rfl

end Related

end Point

namespace Draft

lemma related_refl (hR : ∀ p, R p p) (d : Draft) : d.Related R d where
  size_eq := rfl
  point p a a' ha ha' := by
    obtain rfl := Option.some.inj (ha.symm.trans ha')
    exact a.related_refl hR
  slots_eq := rfl
  entries := List.forall₂_same.2 fun e _ => ⟨rfl, hR e.2⟩

lemma lookup_related {α : Type} [BEq α] {table table' : List (α × PointId)}
    (h : List.Forall₂ (fun e e' => e'.1 = e.1 ∧ R e.2 e'.2) table table') (a : α) :
    Option.Rel R (table.lookup a) (table'.lookup a) := by
  induction h with
  | nil => exact .none
  | cons he _ ih =>
    rw [List.lookup_cons, List.lookup_cons, he.1]
    split
    · exact .some he.2
    · exact ih

namespace Related

variable {d d' : Draft}

lemma add (h : d.Related R d') (hR : ∀ p, R p p) {a a' : Point} (ha : a.Related R a') :
    RelatedWith R (d.add a) (d'.add a') := by
  refine ⟨?_, ⟨by simp [h.size_eq], fun p b b' hb hb' => ?_, h.slots_eq, h.entries⟩⟩
  · simp only [Draft.add, h.size_eq]
    exact hR _
  · simp only [Draft.add, FlowGraph.get?_push, h.size_eq] at hb hb'
    by_cases hp : p = d.graph.size
    · rw [if_pos hp, Option.some.injEq] at hb hb'
      exact hb ▸ hb' ▸ ha
    · rw [if_neg hp] at hb hb'
      exact h.point p b b' hb hb'

lemma slot (h : d.Related R d') (hR : ∀ p, R p p) (label : String) :
    RelatedWith R (d.slot label) (d'.slot label) := by
  have hadd := h.add hR (.unsupported (.jump .goTo (some label)))
  unfold Draft.slot
  rw [h.slots_eq]
  rcases d.slots.lookup label with _ | p
  · refine ⟨hadd.1, ⟨hadd.2.size_eq, hadd.2.point, ?_, hadd.2.entries⟩⟩
    simp [Draft.add, h.size_eq, h.slots_eq]
  · exact ⟨hR p, h⟩

lemma enter (h : d.Related R d') (label : String) {entry entry' : PointId}
    (hentry : R entry entry') : (d.enter label entry).Related R (d'.enter label entry') where
  size_eq := h.size_eq
  point := h.point
  slots_eq := h.slots_eq
  entries := .cons ⟨rfl, hentry⟩ h.entries

lemma aimTrue (h : d.Related R d') {p p' target target' : PointId} (hp : p' = p)
    (htarget : R target target') : (d.aimTrue p target).Related R (d'.aimTrue p' target') where
  size_eq := by simpa using h.size_eq
  point q b b' hb hb' := by
    subst hp
    by_cases hpq : p' = q
    · simp only [Draft.aimTrue, FlowGraph.get?, Array.getElem?_modify, if_pos hpq,
        Option.map_eq_some_iff] at hb hb'
      obtain ⟨a, ha, rfl⟩ := hb
      obtain ⟨a', ha', rfl⟩ := hb'
      cases h.point q a a' ha ha' with
      | branch test htrue hfalse => exact .branch test htarget hfalse
      | evaluate e h => exact .evaluate e h
      | assign targets values define h => exact .assign targets values define h
      | ret results => exact .ret results
      | unsupported s => exact .unsupported s
    · rw [get?_aimTrue_of_ne _ _ hpq] at hb hb'
      exact h.point q b b' hb hb'
  slots_eq := h.slots_eq
  entries := h.entries

/-- The placeholders that are redirected are the same, and where they lead is related. -/
lemma lookup_redirects (h : d.Related R d') (p : PointId) :
    Option.Rel R (d.redirects.lookup p) (d'.redirects.lookup p) := by
  refine lookup_related ?_ p
  unfold Draft.redirects
  rw [h.slots_eq]
  induction d.slots with
  | nil => exact .nil
  | cons slot _ ih =>
    have hentry := lookup_related h.entries slot.1
    simp only [List.filterMap_cons]
    generalize d.entries.lookup slot.1 = q?, d'.entries.lookup slot.1 = q'? at hentry ⊢
    cases hentry with
    | some hq => exact .cons ⟨rfl, hq⟩ ih
    | none => exact ih

lemma exists_lookup_left (h : d.Related R d') {p q' : PointId}
    (hq' : d'.redirects.lookup p = some q') : ∃ q, d.redirects.lookup p = some q ∧ R q q' := by
  have hlookup := h.lookup_redirects p
  rw [hq'] at hlookup
  generalize d.redirects.lookup p = q? at hlookup
  cases hlookup with
  | some hq => exact ⟨_, rfl, hq⟩

lemma exists_lookup_right (h : d.Related R d') {p q : PointId}
    (hq : d.redirects.lookup p = some q) : ∃ q', d'.redirects.lookup p = some q' ∧ R q q' := by
  have hlookup := h.lookup_redirects p
  rw [hq] at hlookup
  generalize d'.redirects.lookup p = q'? at hlookup
  cases hlookup with
  | some hq' => exact ⟨_, rfl, hq'⟩

/-- Settling one of the drafts keeps them related if it keeps the handles related. -/
lemma settle_right (h : d.Related R d') (hresolve : ∀ p q, R p q → R p (d'.resolve q)) :
    d.Related R d'.settle where
  size_eq := by simpa using h.size_eq
  point p a a' ha ha' := by
    rw [get?_settle, Option.map_eq_some_iff] at ha'
    obtain ⟨b, hb, rfl⟩ := ha'
    exact (h.point p a b ha hb).redirect_right hresolve
  slots_eq := h.slots_eq
  entries := h.entries

/-- Drafts that send related handles to the same place settle to the same graph. -/
lemma graph_settle_eq (h : d.Related R d') (hresolve : ∀ p q, R p q → d.resolve p = d'.resolve q) :
    d.settle.graph = d'.settle.graph := by
  have hget? (i : PointId) : d.settle.graph.get? i = d'.settle.graph.get? i := by
    rw [get?_settle, get?_settle]
    rcases ha : d.graph.get? i with _ | a
    · rw [FlowGraph.get?_eq_none_iff, ← h.size_eq, ← FlowGraph.get?_eq_none_iff] at ha
      simp [ha]
    · rcases ha' : d'.graph.get? i with _ | a'
      · rw [FlowGraph.get?_eq_none_iff, h.size_eq, ← FlowGraph.get?_eq_none_iff] at ha'
        simp [ha] at ha'
      · simp [(h.point i a a' ha ha').redirect_eq hresolve]
  exact congrArg FlowGraph.mk (Array.ext_getElem? hget?)

end Related

end Draft

/-! ### Compiling -/

lemma Loop.find?_related {loops loops' : List Loop} (h : List.Forall₂ (Loop.Related R) loops loops')
    (label : Option String) :
    Option.Rel (Loop.Related R) (Loop.find? loops label) (Loop.find? loops' label) := by
  cases label with
  | none =>
    cases h with
    | nil => exact .none
    | cons hl _ => exact .some hl
  | some label =>
    induction h with
    | nil => exact .none
    | @cons l l' _ _ hl _ ih =>
      simp only [Loop.find?, List.find?_cons, hl.label_eq]
      split
      · exact .some hl
      · exact ih

namespace Stmt

/-- What is compiled from the statement is related as soon as the handles given to it are. -/
def Relates (R : PointId → PointId → Prop) (s : Stmt) : Prop :=
  ∀ loops loops' label next next' d d', List.Forall₂ (Loop.Related R) loops loops' →
    R next next' → d.Related R d' →
    Draft.RelatedWith R (compile loops label s next d) (compile loops' label s next' d')

variable (hR : ∀ p, R p p)
include hR

lemma relates_assign (targets values : List Expr) (define : Bool) (op : Option BinaryOp) :
    Relates R (.assign targets values define op) := by
  intro loops loops' label next next' d d' _ hnext hd
  rcases op with _ | op
  · rw [compile, compile]
    exact hd.add hR (.assign targets values define hnext)
  · by_cases hone : ∃ target value, targets = [target] ∧ values = [value]
    · obtain ⟨target, value, rfl, rfl⟩ := hone
      rw [compile, compile, compound_eq, compound_eq]
      exact hd.add hR (.assign _ _ _ hnext)
    · have hmany : ∀ target value, targets = [target] → values = [value] → False :=
        fun target value ht hv => hone ⟨target, value, ht, hv⟩
      rw [compile.eq_5 _ _ _ _ _ _ _ _ hmany, compile.eq_5 _ _ _ _ _ _ _ _ hmany]
      exact hd.add hR (.unsupported _)

lemma relates_jump (kind : JumpKind) (target : Option String) : Relates R (.jump kind target) := by
  intro loops loops' label next next' d d' hloops _ hd
  have hfind := Loop.find?_related hloops target
  rw [compile, compile]
  unfold jumpTo
  split
  · exact hd.slot hR _
  · generalize Loop.find? loops target = l?, Loop.find? loops' target = l?' at hfind ⊢
    cases hfind with
    | some hl => exact ⟨hl.out, hd⟩
    | none => exact hd.add hR (.unsupported _)
  · generalize Loop.find? loops target = l?, Loop.find? loops' target = l?' at hfind ⊢
    cases hfind with
    | some hl => exact ⟨hl.next, hd⟩
    | none => exact hd.add hR (.unsupported _)
  · exact hd.add hR (.unsupported _)

lemma relates_ifElse {init : Option Stmt} {body : Stmt} {otherwise : Option Stmt}
    (hinit : Relates R (init.getD .empty)) (hbody : Relates R body)
    (helse : Relates R (otherwise.getD .empty)) (test : Expr) :
    Relates R (.ifElse init test body otherwise) := by
  intro loops loops' label next next' d d' hloops hnext hd
  simp only [compile, compileOption_eq]
  have hb := hbody loops loops' none next next' d d' hloops hnext hd
  have he := helse loops loops' none next next' _ _ hloops hnext hb.2
  have ht := he.2.add hR (.branch (some test) hb.1 he.1)
  exact hinit loops loops' none _ _ _ _ hloops ht.1 ht.2

lemma relates_loop {init post : Option Stmt} {body : Stmt} (hinit : Relates R (init.getD .empty))
    (hpost : Relates R (post.getD .empty)) (hbody : Relates R body) (test : Option Expr) :
    Relates R (.loop init test post body) := by
  intro loops loops' label next next' d d' hloops hnext hd
  simp only [compile, compileOption_eq]
  have hh := hd.add hR (.branch test hnext hnext)
  have hp := hpost loops loops' none _ _ _ _ hloops hh.1 hh.2
  have hloop : Loop.Related R ⟨label, (d.add (.branch test next next)).1, next⟩
      ⟨label, (d'.add (.branch test next' next')).1, next'⟩ := ⟨rfl, hh.1, hnext⟩
  have hb := hbody _ _ none _ _ _ _ (.cons hloop hloops) hp.1 hp.2
  exact hinit loops loops' none _ _ _ _ hloops hh.1 (hb.2.aimTrue hd.size_eq hb.1)

/-- Compiling never looks at the handles that it is given. -/
theorem relates (s : Stmt) : Relates R s := by
  induction s with
  | empty =>
    intro loops loops' label next next' d d' _ hnext hd
    rw [compile, compile]
    exact ⟨hnext, hd⟩
  | expr e =>
    intro loops loops' label next next' d d' _ hnext hd
    rw [compile, compile]
    exact hd.add hR (.evaluate e hnext)
  | assign targets values define op => exact relates_assign hR targets values define op
  | count target up =>
    intro loops loops' label next next' d d' _ hnext hd
    rw [compile, compile, compound_eq, compound_eq]
    exact hd.add hR (.assign _ _ _ hnext)
  | nil =>
    intro loops loops' label next next' d d' _ hnext hd
    rw [compile, compile, compileAll, compileAll]
    exact ⟨hnext, hd⟩
  | cons s rest ihs ihrest =>
    intro loops loops' label next next' d d' hloops hnext hd
    have hrest := ihrest loops loops' label next next' d d' hloops hnext hd
    rw [compile, compile] at hrest
    rw [compile, compile, compileAll, compileAll]
    exact ihs loops loops' none _ _ _ _ hloops hrest.1 hrest.2
  | ifElse init test body otherwise ihinit ihbody ihelse =>
    exact relates_ifElse hR ihinit ihbody ihelse test
  | loop init test post body ihinit ihpost ihbody =>
    exact relates_loop hR ihinit ihpost ihbody test
  | jump kind target => exact relates_jump hR kind target
  | ret results =>
    intro loops loops' label next next' d d' _ _ hd
    rw [compile, compile]
    exact hd.add hR (.ret results)
  | labeled label body ih =>
    intro loops loops' l next next' d d' hloops hnext hd
    have hbody := ih loops loops' (some label) next next' d d' hloops hnext hd
    rw [compile, compile]
    exact ⟨hbody.1, hbody.2.enter label hbody.1⟩
  | other kind =>
    intro loops loops' label next next' d d' _ _ hd
    rw [compile, compile]
    exact hd.add hR (.unsupported _)

end Stmt

end Staged
