import Staged.Value.Fold
import Mathlib.Data.Int.Bitwise
import Mathlib.Data.Int.ModEq
import Mathlib.Tactic.Positivity

/-!
Operators on two known integers, told by what they give on integers without bounds. Sums,
differences, products, quotients and shifts to the left lose a multiple of `2 ^ 64`; everything else
is exact.
-/

namespace Staged

/-! ### Words -/

namespace Word

variable {a b c d : Int64} {n : Int}

/-- No two words have the same residue. -/
lemma eq_of_modEq (h : c.toInt ≡ d.toInt [ZMOD 2 ^ 64]) : c = d := by
  have hcd : c.toInt % 2 ^ 64 = d.toInt % 2 ^ 64 := h
  have hclow := c.le_toInt
  have hchigh := c.toInt_lt
  have hdlow := d.le_toInt
  have hdhigh := d.toInt_lt
  apply Int64.toInt_inj.1
  omega

lemma modEq_of_eq_bmod (h : c.toInt = n.bmod (2 ^ 64)) : c.toInt ≡ n [ZMOD 2 ^ 64] := by
  rw [h]
  exact Int.bmod_emod

/-- Bits beyond the word repeat its sign. -/
lemma testBit_toInt (a : Int64) (i : Nat) :
    a.toInt.testBit i = if i < 64 then a.toBitVec.getLsbD i else a.toBitVec.msb := by
  have hnat : a.toInt = if a.toBitVec.msb then (a.toBitVec.toNat : Int) - (2 ^ 64 : Nat)
      else a.toBitVec.toNat := BitVec.toInt_eq_msb_cond a.toBitVec
  rcases hmsb : a.toBitVec.msb with _ | _
  · rw [hmsb, if_neg Bool.false_ne_true] at hnat
    have hbit : a.toInt.testBit i = a.toBitVec.getLsbD i := by
      rw [hnat, ← BitVec.testBit_toNat]
      rfl
    rw [hbit]
    split
    · rfl
    · exact BitVec.getLsbD_of_ge _ _ (by omega)
  · -- a negative integer has the bits of its complement, inverted
    have hlt := a.toBitVec.isLt
    have hcomplement : a.toInt = Int.negSucc (~~~a.toBitVec).toNat := by
      rw [hnat, hmsb, if_pos rfl, BitVec.toNat_not, Int.negSucc_eq]
      omega
    have hbit : a.toInt.testBit i = !(~~~a.toBitVec).getLsbD i := by
      rw [hcomplement, ← BitVec.testBit_toNat]
      rfl
    rw [hbit, BitVec.getLsbD_not]
    split
    · next hi => simp [hi]
    · next hi => simp [hi]

/-- Words with the same bits are the same. -/
lemma eq_of_testBit_eq (h : ∀ i, c.toInt.testBit i = d.toInt.testBit i) : c = d := by
  apply Int64.toBitVec_inj.1
  apply BitVec.eq_of_getLsbD_eq
  intro i hi
  have hbit := h i
  rwa [testBit_toInt, testBit_toInt, if_pos hi, if_pos hi] at hbit

/-- A word that is made bit by bit, the sign included, is so to infinity. -/
lemma testBit_eq {f : Bool → Bool → Bool}
    (hbits : ∀ i < 64, c.toBitVec.getLsbD i = f (a.toBitVec.getLsbD i) (b.toBitVec.getLsbD i))
    (hsign : c.toBitVec.msb = f a.toBitVec.msb b.toBitVec.msb) (i : Nat) :
    c.toInt.testBit i = f (a.toInt.testBit i) (b.toInt.testBit i) := by
  rw [testBit_toInt, testBit_toInt, testBit_toInt]
  split
  · next hi => exact hbits i hi
  · exact hsign

lemma toInt_eq_zero_iff : b.toInt = 0 ↔ b = 0 := by
  rw [← Int64.toInt_zero, Int64.toInt_inj]

lemma toInt_neg_iff : b.toInt < 0 ↔ b < 0 := by
  rw [Int64.lt_iff_toInt_lt, Int64.toInt_zero]

/-- The remainder belongs to the truncated quotient. -/
lemma mul_tdiv_add_toInt_mod (a b : Int64) :
    b.toInt * a.toInt.tdiv b.toInt + (a % b).toInt = a.toInt := by
  rw [Int64.toInt_mod, Int.mul_tdiv_add_tmod]

lemma abs_toInt_mod_lt (hb : b.toInt ≠ 0) : |(a % b).toInt| < |b.toInt| := by
  rw [Int64.toInt_mod, Int.abs_eq_natAbs, Int.abs_eq_natAbs, Int.natAbs_tmod]
  exact_mod_cast Nat.mod_lt _ (Int.natAbs_pos.2 hb)

lemma sign_toInt_mod (a b : Int64) :
    (a % b).toInt = 0 ∨ (a % b).toInt.sign = a.toInt.sign := by
  have hsign := Int.sign_tmod a.toInt b.toInt
  rw [← Int64.toInt_mod] at hsign
  split at hsign
  · exact .inl (Int.sign_eq_zero_iff_zero.1 hsign)
  · exact .inr hsign

/-- A count below the width of a word is taken as it is. -/
lemma toNat_count (h0 : 0 ≤ b.toInt) (h64 : b.toInt < 64) :
    (b.toBitVec.smod 64).toNat = b.toInt.toNat := by
  have hcount : (b.toBitVec.smod 64).toInt = b.toInt := by
    have hmod : (b.toBitVec.smod 64).toInt = b.toInt.fmod 64 := BitVec.toInt_smod
    rw [hmod, Int.fmod_eq_emod_of_nonneg _ (by decide), Int.emod_eq_of_lt h0 h64]
  have hnat := BitVec.toInt_eq_toNat_cond (b.toBitVec.smod 64)
  split at hnat <;> omega

lemma toInt_shiftLeft (h0 : 0 ≤ b.toInt) (h64 : b.toInt < 64) :
    (a <<< b).toInt = (a.toInt * 2 ^ b.toInt.toNat).bmod (2 ^ 64) := by
  calc (a <<< b).toInt = (a.toBitVec <<< b.toBitVec.smod 64).toInt :=
        congrArg BitVec.toInt (Int64.toBitVec_shiftLeft a b)
    _ = (a.toBitVec <<< b.toInt.toNat).toInt := by
        rw [BitVec.shiftLeft_eq', toNat_count h0 h64]
    _ = ((a.toBitVec.toNat : Int) * 2 ^ b.toInt.toNat).bmod (2 ^ 64) := by
        rw [BitVec.toInt_shiftLeft, Nat.shiftLeft_eq]
        push_cast
        rfl
    _ = (a.toInt * 2 ^ b.toInt.toNat).bmod (2 ^ 64) := by
        have ha : a.toInt = (a.toBitVec.toNat : Int).bmod (2 ^ 64) := BitVec.toInt_eq_toNat_bmod _
        rw [ha, Int.bmod_mul_bmod]

/-- Nothing is left of a word that is shifted to the left by its width. -/
lemma modEq_zero_of_le (h64 : 64 ≤ b.toInt) :
    0 ≡ a.toInt * 2 ^ b.toInt.toNat [ZMOD 2 ^ 64] := by
  have hpow : (2 ^ 64 : Int) ∣ 2 ^ b.toInt.toNat := pow_dvd_pow 2 (by omega)
  exact (Int.modEq_zero_iff_dvd.2 (hpow.mul_left _)).symm

lemma toInt_shiftRight (h0 : 0 ≤ b.toInt) (h64 : b.toInt < 64) :
    (a >>> b).toInt = a.toInt.fdiv (2 ^ b.toInt.toNat) := by
  calc (a >>> b).toInt = (a.toBitVec.sshiftRight' (b.toBitVec.smod 64)).toInt :=
        congrArg BitVec.toInt (Int64.toBitVec_shiftRight a b)
    _ = a.toInt >>> b.toInt.toNat := by
        rw [BitVec.sshiftRight_eq', toNat_count h0 h64, BitVec.toInt_sshiftRight]
        rfl
    _ = a.toInt.fdiv (2 ^ b.toInt.toNat) := by
        rw [Int.shiftRight_eq_div_pow, Int.fdiv_eq_ediv_of_nonneg _ (by positivity)]
        push_cast
        rfl

/-- Beyond the width of a word nothing but its sign is left, as after a shift by one less. -/
lemma fdiv_of_le (h64 : 64 ≤ b.toInt) :
    a.toInt.fdiv (2 ^ b.toInt.toNat) = a.toInt.fdiv (2 ^ 63) := by
  have hlow := a.le_toInt
  have hhigh := a.toInt_lt
  have hpow : (2 ^ 63 : Int) ≤ 2 ^ b.toInt.toNat := pow_le_pow_right₀ (by decide) (by omega)
  rw [Int.fdiv_eq_ediv_of_nonneg _ (by positivity), Int.fdiv_eq_ediv_of_nonneg _ (by positivity)]
  rcases lt_or_ge a.toInt 0 with hneg | hpos
  · rw [Int.ediv_eq_neg_one_of_neg_of_le hneg (by omega),
      Int.ediv_eq_neg_one_of_neg_of_le hneg (by omega)]
  · rw [Int.ediv_eq_zero_of_lt hpos (by omega), Int.ediv_eq_zero_of_lt hpos (by omega)]

end Word

namespace BinaryOp

/-! ### Operators on integers without bounds -/

def arithmetic? : BinaryOp → Option (Int → Int → Int)
  | add => some (· + ·)
  | sub => some (· - ·)
  | mul => some (· * ·)
  | _ => none

/-- What an operator makes of each two bits that stand at the same place. -/
def bitwise? : BinaryOp → Option (Bool → Bool → Bool)
  | and => some (· && ·)
  | or => some (· || ·)
  | xor => some (· ^^ ·)
  | andNot => some (· && !·)
  | _ => none

def comparison? {α : Type} [DecidableEq α] [LT α] [DecidableLT α] [LE α] [DecidableLE α] :
    BinaryOp → Option (α → α → Bool)
  | eql => some fun a b => decide (a = b)
  | neq => some fun a b => decide (a ≠ b)
  | lss => some fun a b => decide (a < b)
  | leq => some fun a b => decide (a ≤ b)
  | gtr => some fun a b => decide (a > b)
  | geq => some fun a b => decide (a ≥ b)
  | _ => none

/-- The operator gives nothing on integers, or nothing where the right one is `b`. -/
def Undefined (b : Int) : BinaryOp → Prop
  | quo | rem => b = 0
  | shl | shr => b < 0
  | logAnd | logOr => True
  | _ => False

/-- What an operator makes of two known integers. -/
inductive OnInts (a b : Int64) : BinaryOp → Value → Prop
  | arithmetic {op : BinaryOp} {f : Int → Int → Int} {c : Int64} (hop : op.arithmetic? = some f)
      (h : c.toInt ≡ f a.toInt b.toInt [ZMOD 2 ^ 64]) : OnInts a b op (.int c)
  | quo {c : Int64} (hb : b.toInt ≠ 0) (h : c.toInt ≡ a.toInt.tdiv b.toInt [ZMOD 2 ^ 64]) :
      OnInts a b quo (.int c)
  | rem {c : Int64} (hb : b.toInt ≠ 0)
      (h : a.toInt ≡ b.toInt * a.toInt.tdiv b.toInt + c.toInt [ZMOD 2 ^ 64])
      (size : |c.toInt| < |b.toInt|) (sign : c.toInt = 0 ∨ c.toInt.sign = a.toInt.sign) :
      OnInts a b rem (.int c)
  /-- Negative integers have infinitely many leading ones. -/
  | bitwise {op : BinaryOp} {f : Bool → Bool → Bool} {c : Int64} (hop : op.bitwise? = some f)
      (h : ∀ i, c.toInt.testBit i = f (a.toInt.testBit i) (b.toInt.testBit i)) :
      OnInts a b op (.int c)
  | shl {c : Int64} (hb : 0 ≤ b.toInt)
      (h : c.toInt ≡ a.toInt * 2 ^ b.toInt.toNat [ZMOD 2 ^ 64]) : OnInts a b shl (.int c)
  /-- The quotient is rounded downwards. -/
  | shr {c : Int64} (hb : 0 ≤ b.toInt) (h : c.toInt = a.toInt.fdiv (2 ^ b.toInt.toNat)) :
      OnInts a b shr (.int c)
  | comparison {op : BinaryOp} {p : Int → Int → Bool} (hop : op.comparison? = some p) :
      OnInts a b op (.bool (p a.toInt b.toInt))
  /-- The operator stays, between the decimal texts of its operands. -/
  | residual {op : BinaryOp} (h : op.Undefined b.toInt) :
      OnInts a b op
        (.unknown (.binary op (.lit ⟨.int, a.toInt.repr⟩) (.lit ⟨.int, b.toInt.repr⟩)))

/-! ### Operators on words -/

variable {op : BinaryOp} {a b : Int64}

lemma exists_binary_arithmetic {f : Int → Int → Int} (hop : op.arithmetic? = some f) :
    ∃ c : Int64, Value.binary op (.int a) (.int b) = .int c ∧
      c.toInt ≡ f a.toInt b.toInt [ZMOD 2 ^ 64] := by
  cases op <;> cases hop
  case add => exact ⟨a + b, rfl, Word.modEq_of_eq_bmod (Int64.toInt_add a b)⟩
  case sub => exact ⟨a - b, rfl, Word.modEq_of_eq_bmod (Int64.toInt_sub a b)⟩
  case mul => exact ⟨a * b, rfl, Word.modEq_of_eq_bmod (Int64.toInt_mul a b)⟩

lemma binary_quo (hb : b.toInt ≠ 0) : Value.binary quo (.int a) (.int b) = .int (a / b) := by
  rw [ne_eq, Word.toInt_eq_zero_iff] at hb
  simp [Value.binary, onValues?, onInts?, hb]

lemma binary_rem (hb : b.toInt ≠ 0) : Value.binary rem (.int a) (.int b) = .int (a % b) := by
  rw [ne_eq, Word.toInt_eq_zero_iff] at hb
  simp [Value.binary, onValues?, onInts?, hb]

lemma exists_binary_bitwise {f : Bool → Bool → Bool} (hop : op.bitwise? = some f) :
    ∃ c : Int64, Value.binary op (.int a) (.int b) = .int c ∧
      ∀ i, c.toInt.testBit i = f (a.toInt.testBit i) (b.toInt.testBit i) := by
  cases op <;> cases hop
  case and => exact ⟨a &&& b, rfl, Word.testBit_eq (fun _ _ => BitVec.getLsbD_and) BitVec.msb_and⟩
  case or => exact ⟨a ||| b, rfl, Word.testBit_eq (fun _ _ => BitVec.getLsbD_or) BitVec.msb_or⟩
  case xor => exact ⟨a ^^^ b, rfl, Word.testBit_eq (fun _ _ => BitVec.getLsbD_xor) BitVec.msb_xor⟩
  case andNot =>
    refine ⟨a &&& ~~~b, rfl, Word.testBit_eq (f := fun x y => x && !y) (fun i hi => ?_) ?_⟩
    · simp [hi]
    · simp

lemma exists_binary_shl (hb : 0 ≤ b.toInt) :
    ∃ c : Int64, Value.binary shl (.int a) (.int b) = .int c ∧
      c.toInt ≡ a.toInt * 2 ^ b.toInt.toNat [ZMOD 2 ^ 64] := by
  have hneg : ¬ b < 0 := by
    rw [← Word.toInt_neg_iff]
    omega
  refine ⟨if b < 64 then a <<< b else 0, by simp [Value.binary, onValues?, onInts?, hneg], ?_⟩
  split
  · next h64 => exact Word.modEq_of_eq_bmod (Word.toInt_shiftLeft hb (Int64.lt_iff_toInt_lt.1 h64))
  · next h64 =>
    rw [Int64.lt_iff_toInt_lt, not_lt] at h64
    exact Word.modEq_zero_of_le h64

lemma exists_binary_shr (hb : 0 ≤ b.toInt) :
    ∃ c : Int64, Value.binary shr (.int a) (.int b) = .int c ∧
      c.toInt = a.toInt.fdiv (2 ^ b.toInt.toNat) := by
  have hneg : ¬ b < 0 := by
    rw [← Word.toInt_neg_iff]
    omega
  refine ⟨a >>> (if b < 64 then b else 63), by simp [Value.binary, onValues?, onInts?, hneg], ?_⟩
  split
  · next h64 => exact Word.toInt_shiftRight hb (Int64.lt_iff_toInt_lt.1 h64)
  · next h64 =>
    rw [Int64.lt_iff_toInt_lt, not_lt] at h64
    rw [Word.fdiv_of_le h64]
    exact Word.toInt_shiftRight (by decide) (by decide)

lemma binary_comparison {p : Int → Int → Bool} (hop : op.comparison? = some p) :
    Value.binary op (.int a) (.int b) = .bool (p a.toInt b.toInt) := by
  cases op <;> cases hop <;> apply congrArg Value.bool <;> apply decide_eq_decide.2
  case eql => exact Int64.toInt_inj.symm
  case neq => exact not_congr Int64.toInt_inj.symm
  case lss => exact Int64.lt_iff_toInt_lt
  case leq => exact Int64.le_iff_toInt_le
  case gtr => exact Int64.lt_iff_toInt_lt
  case geq => exact Int64.le_iff_toInt_le

lemma binary_undefined (h : op.Undefined b.toInt) : Value.binary op (.int a) (.int b) =
    .unknown (.binary op (.lit ⟨.int, a.toInt.repr⟩) (.lit ⟨.int, b.toInt.repr⟩)) := by
  have hnone : op.onInts? a b = none := by
    cases op
    case quo => exact if_pos (Word.toInt_eq_zero_iff.1 h)
    case rem => exact if_pos (Word.toInt_eq_zero_iff.1 h)
    case shl => exact if_pos (Word.toInt_neg_iff.1 h)
    case shr => exact if_pos (Word.toInt_neg_iff.1 h)
    case logAnd => rfl
    case logOr => rfl
    all_goals exact h.elim
  rw [Value.binary, onValues?, hnone]
  rfl

/-! ### The two against each other -/

lemma onInts_of_arithmetic {f : Int → Int → Int} (hop : op.arithmetic? = some f) :
    OnInts a b op (Value.binary op (.int a) (.int b)) := by
  obtain ⟨c, hc, hmod⟩ := exists_binary_arithmetic (a := a) (b := b) hop
  rw [hc]
  exact .arithmetic hop hmod

lemma onInts_of_bitwise {f : Bool → Bool → Bool} (hop : op.bitwise? = some f) :
    OnInts a b op (Value.binary op (.int a) (.int b)) := by
  obtain ⟨c, hc, hbits⟩ := exists_binary_bitwise (a := a) (b := b) hop
  rw [hc]
  exact .bitwise hop hbits

lemma onInts_of_comparison {p : Int → Int → Bool} (hop : op.comparison? = some p) :
    OnInts a b op (Value.binary op (.int a) (.int b)) := by
  rw [binary_comparison hop]
  exact .comparison hop

lemma onInts_binary (op : BinaryOp) (a b : Int64) :
    OnInts a b op (Value.binary op (.int a) (.int b)) := by
  by_cases h : op.Undefined b.toInt
  · rw [binary_undefined h]
    exact .residual h
  cases op with
  | add | sub | mul => exact onInts_of_arithmetic rfl
  | quo =>
    rw [binary_quo h]
    exact .quo h (Word.modEq_of_eq_bmod (Int64.toInt_div a b))
  | rem =>
    rw [binary_rem h]
    refine .rem h ?_ (Word.abs_toInt_mod_lt h) (Word.sign_toInt_mod a b)
    rw [Word.mul_tdiv_add_toInt_mod]
  | and | or | xor | andNot => exact onInts_of_bitwise rfl
  | shl =>
    obtain ⟨c, hc, hmod⟩ := exists_binary_shl (a := a) (not_lt.1 h)
    rw [hc]
    exact .shl (not_lt.1 h) hmod
  | shr =>
    obtain ⟨c, hc, hfloor⟩ := exists_binary_shr (a := a) (not_lt.1 h)
    rw [hc]
    exact .shr (not_lt.1 h) hfloor
  | logAnd | logOr => exact absurd trivial h
  | eql | neq | lss | leq | gtr | geq => exact onInts_of_comparison rfl

lemma OnInts.eq_binary {v : Value} (h : OnInts a b op v) :
    Value.binary op (.int a) (.int b) = v := by
  cases h with
  | arithmetic hop h =>
    obtain ⟨c, hc, hmod⟩ := exists_binary_arithmetic (a := a) (b := b) hop
    rw [hc, Word.eq_of_modEq (hmod.trans h.symm)]
  | quo hb h =>
    have hmod := Word.modEq_of_eq_bmod (Int64.toInt_div a b)
    rw [binary_quo hb, Word.eq_of_modEq (hmod.trans h.symm)]
  | @rem c hb h =>
    have hsum : b.toInt * a.toInt.tdiv b.toInt + (a % b).toInt ≡
        b.toInt * a.toInt.tdiv b.toInt + c.toInt [ZMOD 2 ^ 64] := by
      rw [Word.mul_tdiv_add_toInt_mod]
      exact h
    rw [binary_rem hb, Word.eq_of_modEq hsum.add_left_cancel']
  | bitwise hop h =>
    obtain ⟨c, hc, hbits⟩ := exists_binary_bitwise (a := a) (b := b) hop
    rw [hc, Word.eq_of_testBit_eq fun i => (hbits i).trans (h i).symm]
  | shl hb h =>
    obtain ⟨c, hc, hmod⟩ := exists_binary_shl (a := a) hb
    rw [hc, Word.eq_of_modEq (hmod.trans h.symm)]
  | shr hb h =>
    obtain ⟨c, hc, hfloor⟩ := exists_binary_shr (a := a) hb
    rw [hc, Int64.toInt_inj.1 (hfloor.trans h.symm)]
  | comparison hop => exact binary_comparison hop
  | residual h => exact binary_undefined h

/-- **Operators on known integers.** Sums, differences, products, quotients and shifts to the left
are those of the integers up to a multiple of `2 ^ 64`, remainders, bits, shifts to the right and
comparisons are exact, and where there is no value the operator stays. This determines the result
for every two integers. -/
theorem binary_int_iff (op : BinaryOp) (a b : Int64) (v : Value) :
    Value.binary op (.int a) (.int b) = v ↔ OnInts a b op v := by
  constructor
  · rintro rfl
    exact onInts_binary op a b
  · exact OnInts.eq_binary

/-- The one quotient that no word holds. -/
example : Value.binary .quo (.int Int64.minValue) (.int (-1)) = .int Int64.minValue := rfl

end BinaryOp

end Staged
