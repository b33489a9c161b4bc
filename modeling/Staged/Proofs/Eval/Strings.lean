import Staged.Proofs.Eval.Basic
import Staged.Proofs.Text.Grammar
import Staged.Proofs.Value.Arithmetic

/-!
Operators between two string literals, told by the bytes that the literals denote. Text is joined and
compared as its bytes are; where one of the two has bytes that are no text, nothing is folded.
-/

namespace Staged

namespace Quoted

variable {literal s t : String} {p q : List UInt8}

/-! ### Literals with and without a text -/

lemma denotes_encode (h : s.toUTF8 = p.toByteArray) : Denotes (encode s).toList p := by
  have hbytes : s.toList.flatMap String.utf8EncodeChar = p := by
    apply List.toByteArray_inj.1
    rw [toByteArray_flatMap, ← String.toUTF8_eq_toByteArray, h]
  rw [← bytes?_eq_some_iff, bytes?_encode, hbytes]

lemma exists_toUTF8_eq (h : p.toByteArray.IsValidUTF8) : ∃ s : String, s.toUTF8 = p.toByteArray :=
  ⟨String.ofByteArray p.toByteArray h, rfl⟩

lemma value_of_toUTF8_eq (h : Denotes literal.toList p) (hs : s.toUTF8 = p.toByteArray) :
    (Literal.mk .string literal).value = .string s := by
  have hdecode : decode literal = some s := by
    simp only [decode, bytes?_eq_some_iff.2 h, fromUTF8?_eq_some_iff, hs]
  simp only [Literal.value, hdecode]

lemma value_of_not_isValidUTF8 (h : Denotes literal.toList p)
    (hp : ¬ p.toByteArray.IsValidUTF8) :
    (Literal.mk .string literal).value = .unknown (.lit ⟨.string, literal⟩) := by
  have hdecode : decode literal = none := by
    simp only [decode, bytes?_eq_some_iff.2 h]
    exact dif_neg hp
  simp only [Literal.value, hdecode]

/-- The value of a literal is written out as a literal that denotes the same bytes. -/
lemma exists_denotes_expr_value (h : Denotes literal.toList p) :
    ∃ l : String, (Literal.mk .string literal).value.expr = .lit ⟨.string, l⟩ ∧
      Denotes l.toList p := by
  by_cases hp : p.toByteArray.IsValidUTF8
  · obtain ⟨s, hs⟩ := exists_toUTF8_eq hp
    rw [value_of_toUTF8_eq h hs]
    exact ⟨encode s, rfl, denotes_encode hs⟩
  · rw [value_of_not_isValidUTF8 h hp]
    exact ⟨literal, rfl, h⟩

end Quoted

namespace BinaryOp

variable {op : BinaryOp} {s t : String} {p q : List UInt8}

/-! ### Operators on texts -/

lemma bytesBefore_eq (hs : s.toUTF8 = p.toByteArray) (ht : t.toUTF8 = q.toByteArray) :
    bytesBefore s t = decide (p < q) := by
  have hp : s.toByteArray.data.toList = p := by
    rw [← String.toUTF8_eq_toByteArray, hs, List.toList_data_toByteArray]
  have hq : t.toByteArray.data.toList = q := by
    rw [← String.toUTF8_eq_toByteArray, ht, List.toList_data_toByteArray]
  rw [bytesBefore, hp, hq, Bool.eq_iff_iff, List.lex_eq_true_iff_lt, decide_eq_true_iff]

lemma eq_iff_bytes_eq (hs : s.toUTF8 = p.toByteArray) (ht : t.toUTF8 = q.toByteArray) :
    s = t ↔ p = q := by
  rw [← String.toByteArray_inj, ← List.toByteArray_inj, ← hs, ← ht]
  rfl

lemma binary_string_comparison {r : List UInt8 → List UInt8 → Bool}
    (hop : op.comparison? = some r) (hs : s.toUTF8 = p.toByteArray)
    (ht : t.toUTF8 = q.toByteArray) :
    Value.binary op (.string s) (.string t) = .bool (r p q) := by
  cases op <;> cases hop <;> apply congrArg Value.bool
  case eql => exact decide_eq_decide.2 (eq_iff_bytes_eq hs ht)
  case neq => exact decide_eq_decide.2 (not_congr (eq_iff_bytes_eq hs ht))
  case lss => exact bytesBefore_eq hs ht
  case leq =>
    rw [bytesBefore_eq ht hs, ← decide_not]
    exact decide_eq_decide.2 List.not_lt
  case gtr => exact bytesBefore_eq ht hs
  case geq =>
    rw [bytesBefore_eq hs ht, ← decide_not]
    exact decide_eq_decide.2 List.not_lt

lemma binary_of_onValues?_eq_none {v w : Value} (h : op.onValues? v w = none) :
    Value.binary op v w = .unknown (.binary op v.expr w.expr) := by
  rw [Value.binary, h, Option.getD_none]

lemma onStrings?_eq_none (hadd : op ≠ add)
    (hop : op.comparison? = (none : Option (List UInt8 → List UInt8 → Bool))) :
    op.onStrings? s t = none := by
  cases op
  case add => exact absurd rfl hadd
  case eql | neq | lss | leq | gtr | geq => cases hop
  all_goals rfl

end BinaryOp

namespace Expr

variable {l l' : String} {p q : List UInt8}

/-! ### Operators between literals -/

/-- The operator between two string literals. -/
def between (op : BinaryOp) (l l' : String) : Expr :=
  .binary op (.lit ⟨.string, l⟩) (.lit ⟨.string, l'⟩)

/-- The operator is left between literals that denote `p` and `q`. -/
def LeftBetween (op : BinaryOp) (p q : List UInt8) (v : Value) : Prop :=
  ∃ l l' : String, v = .unknown (between op l l') ∧ Quoted.Denotes l.toList p ∧
    Quoted.Denotes l'.toList q

lemma eval_between (ρ : Env) (op : BinaryOp) (l l' : String) : (between op l l').eval ρ =
    .ok [Value.binary op (Literal.mk .string l).value (Literal.mk .string l').value] := by
  rw [eval_eq, between, value_binary, value_lit, value_lit]
  rfl

lemma leftBetween_of_onValues?_eq_none {op : BinaryOp} (hp : Quoted.Denotes l.toList p)
    (hq : Quoted.Denotes l'.toList q)
    (h : op.onValues? (Literal.mk .string l).value (Literal.mk .string l').value = none) :
    LeftBetween op p q
      (Value.binary op (Literal.mk .string l).value (Literal.mk .string l').value) := by
  obtain ⟨m, hm, hmp⟩ := Quoted.exists_denotes_expr_value hp
  obtain ⟨m', hm', hmq⟩ := Quoted.exists_denotes_expr_value hq
  refine ⟨m, m', ?_, hmp, hmq⟩
  rw [BinaryOp.binary_of_onValues?_eq_none h, hm, hm', between]

/-- **Operators on string literals.** Between literals of text, `+` joins the bytes and a comparison
compares them, byte by byte in the order of a dictionary; every other operator is left, and so is
any operator where one literal denotes bytes that are no text. -/
theorem eval_between_literals (hp : Quoted.Denotes l.toList p) (hq : Quoted.Denotes l'.toList q)
    (ρ : Env) :
    (p.toByteArray.IsValidUTF8 ∧ q.toByteArray.IsValidUTF8 →
      (∃ s : String, (between .add l l').eval ρ = .ok [.string s] ∧
        s.toUTF8 = (p ++ q).toByteArray) ∧
      (∀ op r, op.comparison? = some r → (between op l l').eval ρ = .ok [.bool (r p q)]) ∧
      ∀ op, op ≠ .add → op.comparison? = (none : Option (List UInt8 → List UInt8 → Bool)) →
        ∃ v, (between op l l').eval ρ = .ok [v] ∧ LeftBetween op p q v) ∧
    (¬ (p.toByteArray.IsValidUTF8 ∧ q.toByteArray.IsValidUTF8) →
      ∀ op, ∃ v, (between op l l').eval ρ = .ok [v] ∧ LeftBetween op p q v) := by
  constructor
  · rintro ⟨hvalid, hvalid'⟩
    obtain ⟨s, hs⟩ := Quoted.exists_toUTF8_eq hvalid
    obtain ⟨t, ht⟩ := Quoted.exists_toUTF8_eq hvalid'
    have hl := Quoted.value_of_toUTF8_eq hp hs
    have hl' := Quoted.value_of_toUTF8_eq hq ht
    refine ⟨⟨s ++ t, ?_, ?_⟩, fun op r hop => ?_, fun op hadd hop => ?_⟩
    · rw [eval_between, hl, hl']
      rfl
    · calc (s ++ t).toUTF8 = s.toUTF8 ++ t.toUTF8 := String.toByteArray_append
        _ = p.toByteArray ++ q.toByteArray := by rw [hs, ht]
        _ = (p ++ q).toByteArray := List.toByteArray_append.symm
    · rw [eval_between, hl, hl', BinaryOp.binary_string_comparison hop hs ht]
    · refine ⟨_, eval_between ρ op l l', leftBetween_of_onValues?_eq_none hp hq ?_⟩
      rw [hl, hl']
      exact BinaryOp.onStrings?_eq_none hadd hop
  · intro hinvalid op
    refine ⟨_, eval_between ρ op l l', leftBetween_of_onValues?_eq_none hp hq ?_⟩
    rw [not_and_or] at hinvalid
    rcases hinvalid with hinvalid | hinvalid
    · rw [Quoted.value_of_not_isValidUTF8 hp hinvalid]
      rfl
    · rw [Quoted.value_of_not_isValidUTF8 hq hinvalid]
      cases (Literal.mk .string l).value <;> rfl

/-- One character as an escape before one between back quotes, and the two bytes of that character
in two literals, which are text together but neither of them alone. -/
theorem eval_between_literals_halves :
    let ρ := Scope.empty.lookup
    (Quoted.Denotes "\"\\u00e9\"".toList [0xc3, 0xa9] ∧ Quoted.Denotes "\x60z\x60".toList [0x7a] ∧
      ([0xc3, 0xa9].toByteArray.IsValidUTF8 ∧ [0x7a].toByteArray.IsValidUTF8) ∧
      (∃ s : String, (between .add "\"\\u00e9\"" "\x60z\x60").eval ρ = .ok [.string s] ∧
        s.toUTF8 = [0xc3, 0xa9, 0x7a].toByteArray) ∧
      (between .lss "\"\\u00e9\"" "\x60z\x60").eval ρ = .ok [.bool false]) ∧
    Quoted.Denotes "\"\\xc3\"".toList [0xc3] ∧ Quoted.Denotes "\"\\251\"".toList [0xa9] ∧
      ¬ ([0xc3].toByteArray.IsValidUTF8 ∧ [0xa9].toByteArray.IsValidUTF8) ∧
      ∃ v, (between .add "\"\\xc3\"" "\"\\251\"").eval ρ = .ok [v] ∧
        LeftBetween .add [0xc3] [0xa9] v := by
  intro ρ
  have hescape : Quoted.Denotes "\"\\u00e9\"".toList [0xc3, 0xa9] :=
    Quoted.bytes?_eq_some_iff.1 (by decide +kernel)
  have hraw : Quoted.Denotes "\x60z\x60".toList [0x7a] :=
    Quoted.bytes?_eq_some_iff.1 (by decide +kernel)
  have hfirst : Quoted.Denotes "\"\\xc3\"".toList [0xc3] :=
    Quoted.bytes?_eq_some_iff.1 (by decide +kernel)
  have hsecond : Quoted.Denotes "\"\\251\"".toList [0xa9] :=
    Quoted.bytes?_eq_some_iff.1 (by decide +kernel)
  have hvalid : [0xc3, 0xa9].toByteArray.IsValidUTF8 ∧ [0x7a].toByteArray.IsValidUTF8 := by
    decide +kernel
  have hinvalid : ¬ ([0xc3].toByteArray.IsValidUTF8 ∧ [0xa9].toByteArray.IsValidUTF8) := by
    decide +kernel
  obtain ⟨hadd, hcomparison, -⟩ := (eval_between_literals hescape hraw ρ).1 hvalid
  have hhalves := (eval_between_literals hfirst hsecond ρ).2 hinvalid
  exact ⟨⟨hescape, hraw, hvalid, hadd, hcomparison .lss _ rfl⟩, hfirst, hsecond, hinvalid,
    hhalves .add⟩

end Expr

end Staged
