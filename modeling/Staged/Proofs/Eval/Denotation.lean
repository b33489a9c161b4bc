import Staged.Proofs.Eval.Staging

/-!
What an expression denotes at run time, and what is left of that by evaluation ahead of it. Calls,
members and indexing are functions of the data they are given, of which nothing else is known.
Operators give what their folds give and fail where the folds leave a residue.
-/

namespace Staged

/-! ### Run-time data -/

/-- A datum of the program, where `other` are those that no known value stands for. -/
inductive Datum (α : Type) where
  | int (n : Int64)
  | string (s : String)
  | bool (b : Bool)
  | other (a : α)
  deriving DecidableEq

/-- What each name denotes. -/
abbrev Store (α : Type) := String → Option (Datum α)

namespace Datum

variable {α : Type}

/-- What a known value stands for. -/
def ofValue : Value → Option (Datum α)
  | .unknown _ => none
  | .int n => some (.int n)
  | .string s => some (.string s)
  | .bool b => some (.bool b)

/-- The known value that stands for a datum. -/
def value? : Datum α → Option Value
  | .int n => some (.int n)
  | .string s => some (.string s)
  | .bool b => some (.bool b)
  | .other _ => none

def binary (op : BinaryOp) (a b : Datum α) : Option (Datum α) := do
  ofValue (← op.onValues? (← a.value?) (← b.value?))

def unary (op : UnaryOp) (a : Datum α) : Option (Datum α) := do
  ofValue (← op.onValue? (← a.value?))

lemma exists_of_isKnown {v : Value} (h : v.isKnown) :
    ∃ a : Datum α, ofValue v = some a ∧ a.value? = some v := by
  cases v with
  | unknown e => simp [Value.isKnown] at h
  | int | string | bool => exact ⟨_, rfl, rfl⟩

end Datum

/-! ### Denotation -/

/-- What a program does where evaluation does not look. -/
structure Interpretation (α : Type) where
  /-- What the literals denote that have no known value. -/
  literal : Literal → Option (Datum α)
  call : Datum α → List (Datum α) → Option (Datum α)
  member : Datum α → String → Option (Datum α)
  index : Datum α → Datum α → Option (Datum α)
  /-- The operators that name storage or wait for a message. -/
  storage : UnaryOp → Expr → Store α → Option (Datum α)

namespace Interpretation

variable {α : Type} (I : Interpretation α)

mutual

/-- What an expression denotes when the variables are as in `r`. -/
@[simp] def denote (r : Store α) : Expr → Option (Datum α)
  | .lit l => Datum.ofValue l.value <|> I.literal l
  | .ident x =>
    if x.name = "true" then some (.bool true)
    else if x.name = "false" then some (.bool false)
    else r x.name
  | .binary op a b => do Datum.binary op (← denote r a) (← denote r b)
  | .unary op a =>
    if op.isArithmetic then do Datum.unary op (← denote r a)
    else I.storage op a r
  | .call f args => do I.call (← denote r f) (← denoteAll r args)
  | .paren a => denote r a
  | .selector a x => do I.member (← denote r a) x.name
  | .index a i => do I.index (← denote r a) (← denote r i)

@[simp] def denoteAll (r : Store α) : List Expr → Option (List (Datum α))
  | [] => some []
  | e :: es => do return (← denote r e) :: (← denoteAll r es)

end

/-- Each variable denotes what its value in `ρ` denotes when all is as in `r`. -/
def under (r : Store α) (ρ : Env) : Store α := fun x => I.denote r (ρ x).expr

end Interpretation

namespace Expr

/-- No operator in the expression names storage or waits for a message. -/
inductive Arithmetic : Expr → Prop where
  | lit (l : Literal) : Arithmetic (.lit l)
  | ident (x : Ident) : Arithmetic (.ident x)
  | binary {a b} (op : BinaryOp) (ha : Arithmetic a) (hb : Arithmetic b) :
      Arithmetic (.binary op a b)
  | unary {op : UnaryOp} {a} (hop : op.isArithmetic) (ha : Arithmetic a) : Arithmetic (.unary op a)
  | call {f args} (hf : Arithmetic f) (hargs : ∀ a ∈ args, Arithmetic a) : Arithmetic (.call f args)
  | paren {a} (ha : Arithmetic a) : Arithmetic (.paren a)
  | selector {a} (ha : Arithmetic a) (x : Ident) : Arithmetic (.selector a x)
  | index {a i} (ha : Arithmetic a) (hi : Arithmetic i) : Arithmetic (.index a i)

mutual

/-- The identifiers that stand inside an indexing. -/
def indexed : Expr → List Ident
  | .lit _ | .ident _ => []
  | .binary _ a b => a.indexed ++ b.indexed
  | .unary _ a => a.indexed
  | .call f args => f.indexed ++ indexedAll args
  | .paren a => a.indexed
  | .selector a _ => a.indexed
  | .index a i => a.idents ++ i.idents

def indexedAll : List Expr → List Ident
  | [] => []
  | e :: es => e.indexed ++ indexedAll es

end

lemma indexedAll_eq_flatMap (es : List Expr) : indexedAll es = es.flatMap indexed := by
  induction es with
  | nil => simp [indexedAll]
  | cons e es ih => simp [indexedAll, ih]

end Expr

namespace Interpretation

variable {α : Type} (I : Interpretation α) {r r' : Store α} {ρ : Env}

/-! ### Values written out -/

lemma denote_expr_of_isKnown {v : Value} (h : v.isKnown) :
    I.denote r v.expr = Datum.ofValue v := by
  cases v with
  | unknown e => simp [Value.isKnown] at h
  | int n => simp [Value.expr, Literal.value, Literal.ofInt, Datum.ofValue]
  | string s => simp [Value.expr, Literal.value, Literal.ofString, Datum.ofValue]
  | bool b => cases b <;> simp [Value.expr, Expr.name, Datum.ofValue]

lemma denote_binary (op : BinaryOp) (v w : Value) :
    I.denote r (Value.binary op v w).expr =
      (do Datum.binary op (← I.denote r v.expr) (← I.denote r w.expr)) := by
  rcases h : op.onValues? v w with _ | u
  · simp [Value.binary, h, Value.expr]
  · obtain ⟨hv, hw, hu⟩ := BinaryOp.isKnown_of_onValues? h
    obtain ⟨a, hva, hav⟩ := Datum.exists_of_isKnown (α := α) hv
    obtain ⟨b, hwb, hbw⟩ := Datum.exists_of_isKnown (α := α) hw
    simp [Value.binary, h, denote_expr_of_isKnown, hv, hw, hu, hva, hwb, Datum.binary, hav, hbw]

lemma denote_unary {op : UnaryOp} (hop : op.isArithmetic) (v : Value) :
    I.denote r (Value.unary op v).expr = (do Datum.unary op (← I.denote r v.expr)) := by
  rcases h : op.onValue? v with _ | u
  · simp [Value.unary, h, Value.expr, hop]
  · obtain ⟨hv, hu⟩ := UnaryOp.isKnown_of_onValue? h
    obtain ⟨a, hva, hav⟩ := Datum.exists_of_isKnown (α := α) hv
    simp [Value.unary, h, denote_expr_of_isKnown, hv, hu, hva, Datum.unary, hav]

lemma denote_paren (v : Value) : I.denote r v.paren.expr = I.denote r v.expr := by
  cases v with
  | unknown e => simp [Value.paren, Value.expr]
  | int | string | bool => rfl

lemma denote_member {v u : Value} {x : String} (h : v.member x = .ok u) :
    I.denote r u.expr = (do I.member (← I.denote r v.expr) x) := by
  cases v with
  | unknown e =>
    obtain rfl := Except.ok.inj h
    simp [Value.expr]
  | int | string | bool => simp [Value.member] at h

lemma denote_call {v u : Value} {ws us : List Value} (h : v.call ws = .ok us)
    (hu : single us = .ok u) :
    I.denote r u.expr =
      (do I.call (← I.denote r v.expr) (← I.denoteAll r (ws.map Value.expr))) := by
  cases v with
  | unknown e =>
    obtain rfl := Except.ok.inj h
    obtain rfl := Except.ok.inj hu
    simp [Value.expr]
  | int | string | bool => simp [Value.call] at h

/-! ### What an expression reads at run time -/

lemma denoteAll_congr {args : List Expr} (h : ∀ a ∈ args, I.denote r a = I.denote r' a) :
    I.denoteAll r args = I.denoteAll r' args := by
  induction args with
  | nil => simp
  | cons a args ih =>
    rw [List.forall_mem_cons] at h
    rw [denoteAll, denoteAll, h.1, ih h.2]

lemma denote_congr {e : Expr} (he : e.Arithmetic) (h : ∀ x ∈ e.idents, r x.name = r' x.name) :
    I.denote r e = I.denote r' e := by
  induction he with
  | lit l => simp
  | ident x =>
    rcases hx : x.isBoolConstant with _ | _
    · have hname := h x (by simp [Expr.idents, hx])
      simp only [denote, hname]
    · have hx : x.name = "true" ∨ x.name = "false" := by simpa [Ident.isBoolConstant] using hx
      rcases hx with hx | hx <;> simp [hx]
  | binary op _ _ iha ihb =>
    simp only [Expr.idents, List.mem_append] at h
    rw [denote, denote, iha fun x hx => h x (.inl hx), ihb fun x hx => h x (.inr hx)]
  | unary hop _ ih => rw [denote, denote, if_pos hop, if_pos hop, ih h]
  | call _ _ ihf ihargs =>
    simp only [Expr.idents, List.mem_append, Expr.identsAll_eq_flatMap, List.mem_flatMap] at h
    rw [denote, denote, ihf fun x hx => h x (.inl hx),
      I.denoteAll_congr fun a ha => ihargs a ha fun x hx => h x (.inr ⟨a, ha, hx⟩)]
  | paren _ ih => rw [denote, denote, ih h]
  | selector _ x ih => rw [denote, denote, ih h]
  | index _ _ iha ihi =>
    simp only [Expr.idents, List.mem_append] at h
    rw [denote, denote, iha fun x hx => h x (.inl hx), ihi fun x hx => h x (.inr hx)]

/-! ### Residues -/

lemma denoteAll_of_mapM {args : List Expr} {ws : List Value}
    (hws : args.mapM (Expr.value ρ) = .ok ws)
    (h : ∀ a ∈ args, ∀ v, a.value ρ = .ok v → I.denote r v.expr = I.denote r' a) :
    I.denoteAll r (ws.map Value.expr) = I.denoteAll r' args := by
  induction mapM_eq_ok.1 hws with
  | nil => simp
  | cons hv hvs ih =>
    rw [List.forall_mem_cons] at h
    rw [List.map_cons, denoteAll, denoteAll, h.1 _ hv, ih (mapM_eq_ok.2 hvs) h.2]

/-- **A residue computes what the expression computes.** Read where all is as in `r`, the value of
an expression denotes what the expression denotes where each variable is what its own value denotes
in `r`. An indexing is left as it is written, so the variables inside it must be the same in both
places. -/
theorem denote_value {e : Expr} (he : e.Arithmetic) {v : Value} (hv : e.value ρ = .ok v)
    (hindexed : ∀ x ∈ e.indexed, I.under r ρ x.name = r x.name) :
    I.denote r v.expr = I.denote (I.under r ρ) e := by
  induction he generalizing v with
  | lit l =>
    obtain rfl := Except.ok.inj hv
    by_cases h : l.value.isKnown
    · obtain ⟨a, ha, -⟩ := Datum.exists_of_isKnown (α := α) h
      rw [I.denote_expr_of_isKnown h, denote, ha]
      rfl
    · rw [Literal.value_eq_of_not_isKnown h, Value.expr, denote, denote]
  | ident x =>
    obtain rfl := Except.ok.inj hv
    rw [denote, Ident.value]
    split_ifs
    · rw [I.denote_expr_of_isKnown rfl]
      rfl
    · rw [I.denote_expr_of_isKnown rfl]
      rfl
    · rfl
  | binary op _ _ iha ihb =>
    simp only [Expr.indexed, List.mem_append] at hindexed
    simp only [Expr.value_binary, bind_eq_ok, pure_eq_ok, Except.ok.injEq] at hv
    obtain ⟨va, ha, vb, hb, rfl⟩ := hv
    rw [denote_binary, denote, iha ha fun x hx => hindexed x (.inl hx),
      ihb hb fun x hx => hindexed x (.inr hx)]
  | unary hop _ ih =>
    simp only [Expr.value_unary ρ hop, bind_eq_ok, pure_eq_ok, Except.ok.injEq] at hv
    obtain ⟨va, ha, rfl⟩ := hv
    rw [denote_unary I hop, denote, if_pos hop, ih ha hindexed]
  | call _ _ ihf ihargs =>
    simp only [Expr.indexed, List.mem_append, Expr.indexedAll_eq_flatMap, List.mem_flatMap]
      at hindexed
    simp only [Expr.value_call, bind_eq_ok] at hv
    obtain ⟨vf, hf, ws, hws, us, hus, hv⟩ := hv
    have hargs := I.denoteAll_of_mapM hws fun a ha v hv =>
      ihargs a ha hv fun x hx => hindexed x (.inr ⟨a, ha, hx⟩)
    rw [I.denote_call hus hv, denote, ihf hf fun x hx => hindexed x (.inl hx), hargs]
  | paren _ ih =>
    simp only [Expr.value_paren, bind_eq_ok, pure_eq_ok, Except.ok.injEq] at hv
    obtain ⟨va, ha, rfl⟩ := hv
    rw [denote_paren, denote, ih ha hindexed]
  | selector _ x ih =>
    simp only [Expr.value_selector, bind_eq_ok] at hv
    obtain ⟨va, ha, hv⟩ := hv
    rw [I.denote_member hv, denote, ih ha hindexed]
  | index ha hi =>
    obtain rfl := Except.ok.inj hv
    exact (I.denote_congr (.index ha hi) hindexed).symm

/-- Nothing but indexing means anything, and it gives the position. -/
def position : Interpretation Unit where
  literal _ := none
  call _ _ := none
  member _ _ := none
  index _ i := some i
  storage _ _ _ := none

/-- `x * a[i]`, where only `x` is bound. -/
theorem denote_value_product :
    let r : Store Unit := fun _ => some (.int 7)
    let ρ := (Scope.ofList [("x", .int 6)]).lookup
    let e := Expr.binary .mul (.name "x") (.index (.name "a") (.name "i"))
    let v := Value.unknown (.binary .mul (Value.int 6).expr (.index (.name "a") (.name "i")))
    e.Arithmetic ∧ e.value ρ = .ok v ∧ (∀ x ∈ e.indexed, position.under r ρ x.name = r x.name) ∧
      position.denote r v.expr = position.denote (position.under r ρ) e ∧
      position.denote r v.expr = some (.int 42) := by
  intro r ρ e v
  have he : e.Arithmetic := .binary .mul (.ident _) (.index (.ident _) (.ident _))
  have hindexed : ∀ x ∈ e.indexed, position.under r ρ x.name = r x.name := by decide
  exact ⟨he, rfl, hindexed, position.denote_value he rfl hindexed, by decide⟩

/-- An indexing is not given what is known of its variables: where `i` is bound to 1, what is left
of `a[i]` reads the `i` from before. -/
theorem denote_value_index_bound :
    let r : Store Unit := fun _ => some (.int 0)
    let ρ := (Scope.ofList [("i", .int 1)]).lookup
    let e := Expr.index (.name "a") (.name "i")
    let v := Value.unknown e
    e.Arithmetic ∧ e.value ρ = .ok v ∧
      position.denote r v.expr ≠ position.denote (position.under r ρ) e := by
  intro r ρ e v
  exact ⟨.index (.ident _) (.ident _), rfl, by decide⟩

end Interpretation

end Staged
