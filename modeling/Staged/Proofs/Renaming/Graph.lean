import Staged.Proofs.Graph.Structured
import Staged.Proofs.Graph.Embedding
import Staged.Proofs.Renaming.Basic

/-!
Renaming in statements and flow graphs. Compiling reads no names, so the graph of a renamed statement
is the renamed graph.
-/

namespace Staged

namespace Stmt

mutual

/-- Renames the variables. Labels are no variables. -/
@[simp] def rename (f : Renaming) : Stmt → Stmt
  | .empty => .empty
  | .expr e => .expr (e.rename f)
  | .assign targets values define op =>
    .assign (targets.map (Expr.rename f)) (values.map (Expr.rename f)) define op
  | .count target up => .count (target.rename f) up
  | .block body => .block (renameAll f body)
  | .ifElse init test body otherwise =>
    .ifElse (renameOption f init) (test.rename f) (body.rename f) (renameOption f otherwise)
  | .loop init test post body =>
    .loop (renameOption f init) (test.map (Expr.rename f)) (renameOption f post) (body.rename f)
  | .jump kind label => .jump kind label
  | .ret results => .ret (results.map (Expr.rename f))
  | .labeled label body => .labeled label (body.rename f)
  | .other kind => .other kind

@[simp] def renameOption (f : Renaming) : Option Stmt → Option Stmt
  | none => none
  | some s => some (s.rename f)

@[simp] def renameAll (f : Renaming) : List Stmt → List Stmt
  | [] => []
  | s :: rest => s.rename f :: renameAll f rest

end

variable (f : Renaming)

lemma renameOption_getD (s? : Option Stmt) :
    (renameOption f s?).getD .empty = (s?.getD .empty).rename f := by
  cases s? <;> simp

end Stmt

namespace Point

def rename (f : Renaming) : Point → Point
  | evaluate e next => evaluate (e.rename f) next
  | assign targets values define next =>
    assign (targets.map (Expr.rename f)) (values.map (Expr.rename f)) define next
  | branch test ifTrue ifFalse => branch (test.map (Expr.rename f)) ifTrue ifFalse
  | ret results => ret (results.map (Expr.rename f))
  | unsupported s => unsupported (s.rename f)

variable (f : Renaming) (point : Point)

lemma redirect_rename (g : PointId → PointId) :
    (point.rename f).redirect g = (point.redirect g).rename f := by
  cases point <;> rfl

end Point

namespace FlowGraph

def rename (f : Renaming) (g : FlowGraph) : FlowGraph := ⟨g.points.map (Point.rename f)⟩

variable (f : Renaming) (g : FlowGraph)

@[simp] lemma get?_rename (p : PointId) :
    (g.rename f).get? p = (g.get? p).map (Point.rename f) := by
  simp [rename, get?]

lemma rename_exit : exit.rename f = exit := by
  simp [rename, exit, Point.rename]

end FlowGraph

namespace Draft

def rename (f : Renaming) (d : Draft) : Draft := { d with graph := d.graph.rename f }

variable (f : Renaming) (d : Draft)

lemma add_rename (point : Point) :
    (d.rename f).add (point.rename f) = Prod.map id (rename f) (d.add point) := by
  simp [add, rename, FlowGraph.push, FlowGraph.rename, FlowGraph.size]

lemma slot_rename (label : String) :
    (d.rename f).slot label = Prod.map id (rename f) (d.slot label) := by
  rcases h : d.slots.lookup label with _ | p
  · simp [slot, rename, h, add, FlowGraph.push, FlowGraph.rename, FlowGraph.size, Point.rename,
      Stmt.rename]
  · simp [slot, rename, h]

lemma aimTrue_rename (p target : PointId) :
    (d.rename f).aimTrue p target = (d.aimTrue p target).rename f := by
  have hpoints : ((d.rename f).aimTrue p target).graph.points =
      (d.aimTrue p target).graph.points.map (Point.rename f) := by
    refine Array.ext_getElem? fun i => ?_
    simp only [aimTrue, rename, FlowGraph.rename, Array.getElem?_modify, Array.getElem?_map]
    split
    · rcases d.graph.points[i]? with _ | point
      · rfl
      · cases point <;> rfl
    · rfl
  simp only [aimTrue, rename, FlowGraph.rename] at hpoints ⊢
  rw [hpoints]

lemma resolve_rename : (d.rename f).resolve = d.resolve := rfl

lemma settle_rename : (d.rename f).settle = d.settle.rename f := by
  rw [settle, resolve_rename]
  simp [settle, rename, FlowGraph.rename, Point.redirect_rename]

end Draft

namespace Stmt

/-- Compiling the renamed statement renames what compiling the statement adds. -/
def Transparent (f : Renaming) (s : Stmt) : Prop :=
  ∀ loops label next d, compile loops label (s.rename f) next (d.rename f) =
    Prod.map id (Draft.rename f) (compile loops label s next d)

variable {f : Renaming}

lemma compound_rename (target : Expr) (op : BinaryOp) (value : Expr) (next : PointId) :
    compound (target.rename f) op (value.rename f) next =
      (compound target op value next).rename f := by
  cases value <;> rfl

lemma transparent_assign (targets values : List Expr) (define : Bool) (op : Option BinaryOp) :
    Transparent f (.assign targets values define op) := by
  intro loops label next d
  rw [rename]
  cases op with
  | none =>
    rw [compile, compile, ← Draft.add_rename, Point.rename]
  | some op =>
    by_cases hone : ∃ target value, targets = [target] ∧ values = [value]
    · obtain ⟨target, value, rfl, rfl⟩ := hone
      simp only [List.map_cons, List.map_nil, compile]
      rw [compound_rename, Draft.add_rename]
    · have hmany : ∀ target value, targets = [target] → values = [value] → False :=
        fun target value ht hv => hone ⟨target, value, ht, hv⟩
      have hmany' : ∀ target value, targets.map (Expr.rename f) = [target] →
          values.map (Expr.rename f) = [value] → False := by
        intro target value ht hv
        obtain ⟨target, rfl, -⟩ := List.map_eq_singleton_iff.1 ht
        obtain ⟨value, rfl, -⟩ := List.map_eq_singleton_iff.1 hv
        exact hone ⟨target, value, rfl, rfl⟩
      rw [compile.eq_5 _ _ _ _ _ _ _ _ hmany, compile.eq_5 _ _ _ _ _ _ _ _ hmany', ← Draft.add_rename]
      rfl

lemma transparent_jump (kind : JumpKind) (target : Option String) :
    Transparent f (.jump kind target) := by
  intro loops label next d
  rw [rename, compile, compile]
  unfold jumpTo
  split
  · exact d.slot_rename f _
  · split
    · rfl
    · rw [← Draft.add_rename]
      rfl
  · split
    · rfl
    · rw [← Draft.add_rename]
      rfl
  · rw [← Draft.add_rename]
    rfl

lemma transparent_ifElse {init : Option Stmt} {body : Stmt} {otherwise : Option Stmt}
    (hinit : Transparent f (init.getD .empty)) (hbody : Transparent f body)
    (helse : Transparent f (otherwise.getD .empty)) (test : Expr) :
    Transparent f (.ifElse init test body otherwise) := by
  have hadd (d : Draft) (ifTrue ifFalse : PointId) :=
    d.add_rename f (.branch (some test) ifTrue ifFalse)
  simp only [Point.rename, Option.map_some] at hadd
  unfold Transparent at hinit hbody helse ⊢
  intro loops label next d
  simp only [rename, compile, compileOption_eq, renameOption_getD, hbody, helse, hadd, hinit,
    Prod.map_fst, Prod.map_snd, id_eq]

lemma transparent_loop {init post : Option Stmt} {body : Stmt}
    (hinit : Transparent f (init.getD .empty)) (hpost : Transparent f (post.getD .empty))
    (hbody : Transparent f body) (test : Option Expr) :
    Transparent f (.loop init test post body) := by
  have hadd (d : Draft) (next : PointId) := d.add_rename f (.branch test next next)
  simp only [Point.rename] at hadd
  unfold Transparent at hinit hpost hbody ⊢
  intro loops label next d
  simp only [rename, compile, compileOption_eq, renameOption_getD, hadd, hpost, hbody,
    Draft.aimTrue_rename, hinit, Prod.map_fst, Prod.map_snd, id_eq]

/-- Compiling reads no names. -/
theorem transparent (f : Renaming) (s : Stmt) : Transparent f s := by
  induction s with
  | empty =>
    intro loops label next d
    rw [rename, compile, compile]
    rfl
  | expr e =>
    intro loops label next d
    rw [rename, compile, compile, ← Draft.add_rename, Point.rename]
  | assign targets values define op => exact transparent_assign targets values define op
  | count target up =>
    intro loops label next d
    have hone : (Expr.lit ⟨.int, "1"⟩).rename f = .lit ⟨.int, "1"⟩ := rfl
    rw [rename, compile, compile, ← Draft.add_rename, ← compound_rename, hone]
  | nil =>
    intro loops label next d
    rw [rename, renameAll, compile, compileAll]
    rfl
  | cons s rest ihs ihrest =>
    intro loops label next d
    have hrest := ihrest loops label next d
    rw [rename, compile, compile] at hrest
    rw [rename, renameAll, compile, compile, compileAll, compileAll, hrest]
    exact ihs loops none _ _
  | ifElse init test body otherwise ihinit ihbody ihelse =>
    exact transparent_ifElse ihinit ihbody ihelse test
  | loop init test post body ihinit ihpost ihbody => exact transparent_loop ihinit ihpost ihbody test
  | jump kind target => exact transparent_jump kind target
  | ret results =>
    intro loops label next d
    rw [rename, compile, compile, ← Draft.add_rename, Point.rename]
  | labeled label body ih =>
    intro loops l next d
    rw [rename, compile, compile, ih loops (some label) next d]
    rfl
  | other kind =>
    intro loops label next d
    rw [rename, compile, compile, ← Draft.add_rename, Point.rename, rename]

lemma analyze_rename (f : Renaming) (s : Stmt) (next : PointId) (d : Draft) :
    (s.rename f).analyze next (d.rename f) = Prod.map id (Draft.rename f) (s.analyze next d) := by
  simp only [analyze, transparent f s [] none next d, Prod.map_fst, Prod.map_snd, id_eq,
    Draft.resolve_rename, Draft.settle_rename, Prod.map_apply]

/-- The graph of a renamed statement is the renamed graph, with the same entry. -/
theorem graph_rename (f : Renaming) (s : Stmt) :
    (s.rename f).graph = Prod.map id (FlowGraph.rename f) s.graph := by
  have hexit : Draft.rename f { graph := .exit } = { graph := .exit } := by
    rw [Draft.rename, FlowGraph.rename_exit]
  have h := analyze_rename f s 0 { graph := .exit }
  rw [hexit] at h
  rw [graph, h]
  rfl

end Stmt

end Staged
