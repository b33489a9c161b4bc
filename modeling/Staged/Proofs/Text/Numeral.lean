import Staged.Text.Numeral
import Mathlib.Tactic.IntervalCases
import Mathlib.Tactic.Lemma

/-!
The decimal text of an integer reads back as that integer: it carries no announcement of another
radix, because only the text of zero begins with a zero. A literal is read through the word of its
magnitude, and spells what it would spell if words had no bounds.
-/

namespace Staged.Numeral

lemma digit?_digitChar {d : Nat} (h : d < 10) : digit? 10 (Nat.digitChar d) = some d := by
  interval_cases d <;> rfl

lemma accumulate?_append (radix n : Nat) (cs ds : List Char) :
    accumulate? radix n (cs ++ ds) =
      (accumulate? radix n cs).bind fun m => accumulate? radix m ds := by
  simp [accumulate?, List.foldlM_append]

lemma accumulate?_toDigits (m : Nat) : accumulate? 10 0 (Nat.toDigits 10 m) = some m := by
  induction m using Nat.strong_induction_on with
  | _ m ih =>
    rw [Nat.toDigits_eq_if (by omega)]
    split
    · next h => simp [accumulate?, digit?_digitChar h]
    · next h =>
      have hd : m % 10 < 10 := Nat.mod_lt _ (by omega)
      rw [accumulate?_append, ih (m / 10) (by omega)]
      simp only [Option.bind_some, accumulate?, List.foldlM_cons, digit?_digitChar hd]
      have : 10 * (m / 10) + m % 10 = m := Nat.div_add_mod m 10
      simp [this]

lemma digitChar_ne_zero {d : Nat} (h0 : 0 < d) (h : d < 10) : Nat.digitChar d ≠ '0' := by
  interval_cases d <;> decide

lemma head?_toDigits_ne_zero {m : Nat} (h : 0 < m) : (Nat.toDigits 10 m).head? ≠ some '0' := by
  induction m using Nat.strong_induction_on with
  | _ m ih =>
    rw [Nat.toDigits_eq_if (by omega)]
    split
    · next h10 => simpa using digitChar_ne_zero h h10
    · next h10 =>
      have := ih (m / 10) (by omega) (by omega)
      rw [List.head?_append]
      rcases hd : (Nat.toDigits 10 (m / 10)).head? with _ | c
      · exact absurd (List.head?_eq_none_iff.1 hd) Nat.toDigits_ne_nil
      · rw [hd] at this
        simpa using this

lemma radixed_toDigits (m : Nat) : radixed (Nat.toDigits 10 m) = (10, Nat.toDigits 10 m) := by
  rcases Nat.eq_zero_or_pos m with rfl | hm
  · rfl
  · have hz := head?_toDigits_ne_zero hm
    rcases hd : Nat.toDigits 10 m with _ | ⟨c, cs⟩
    · rfl
    · have hc : c ≠ '0' := by simpa [hd] using hz
      unfold radixed
      split <;> simp_all

lemma signed_toDigits (m : Nat) : signed (Nat.toDigits 10 m) = (false, Nat.toDigits 10 m) := by
  have hdigit : ∀ c ∈ Nat.toDigits 10 m, c.isDigit = true := fun c hc =>
    Nat.isDigit_of_mem_toDigits (by omega) (by omega) hc
  unfold signed
  split
  · next heq => simpa using hdigit '-' (by simp [heq])
  · next heq => simpa using hdigit '+' (by simp [heq])
  · rfl

lemma magnitude?_toDigits (m : Nat) : magnitude? 10 (Nat.toDigits 10 m) = some m := by
  have h := accumulate?_toDigits m
  rcases hd : Nat.toDigits 10 m with _ | ⟨c, cs⟩
  · exact absurd hd Nat.toDigits_ne_nil
  · rw [hd] at h
    exact h

lemma filter_toDigits (m : Nat) :
    (Nat.toDigits 10 m).filter (· != '_') = Nat.toDigits 10 m := by
  refine List.filter_eq_self.2 fun c hc => ?_
  have : c ≠ '_' := fun h => Nat.underscore_not_in_toDigits (h ▸ hc)
  simpa using this

/-! ### Words -/

lemma word?_eq_some_iff {radix : Nat} {cs : List Char} {w : UInt64} :
    word? radix cs = some w ↔ magnitude? radix cs = some w.toNat := by
  unfold word?
  constructor
  · intro h
    obtain ⟨m, hm, h⟩ := Option.bind_eq_some_iff.1 h
    obtain ⟨hlt, hw⟩ := Option.ite_none_right_eq_some.1 h
    rw [hm, ← Option.some.inj hw]
    exact congrArg some (UInt64.toNat_ofNat_of_lt' hlt).symm
  · intro h
    rw [h, Option.bind_some, if_pos w.toNat_lt_size]
    exact congrArg some UInt64.ofNat_toNat

/-- The integer that a sign makes of a magnitude. -/
def withSign (negative : Bool) (m : Nat) : Int := if negative then -m else m

lemma toNat_minValue : Int64.minValue.toUInt64.toNat = 2 ^ 63 := by decide

lemma toNat_maxValue : Int64.maxValue.toUInt64.toNat = 2 ^ 63 - 1 := by decide

lemma toInt_toInt64 {m : UInt64} (h : m.toNat < 2 ^ 63) : m.toInt64.toInt = m.toNat := by
  have hwrap : m.toInt64.toInt = (m.toNat : Int).bmod (2 ^ 64) := BitVec.toInt_eq_toNat_bmod _
  rw [hwrap]
  apply Int.bmod_eq_of_le <;> omega

lemma toInt_signed (negative : Bool) {m : UInt64} (h : m.toNat < 2 ^ 63) :
    (if negative then -m.toInt64 else m.toInt64).toInt = withSign negative m.toNat := by
  cases negative with
  | false => exact toInt_toInt64 h
  | true =>
    have hneg : (-m.toInt64).toInt = (-(m.toNat : Int)).bmod (2 ^ 64) := by
      rw [Int64.toInt_neg, toInt_toInt64 h]
    have hrange : (-(m.toNat : Int)).bmod (2 ^ 64) = -m.toNat := by
      apply Int.bmod_eq_of_le <;> omega
    exact hneg.trans hrange

/-- Beyond the magnitude of the greatest integer there is one more integer, the least one. -/
lemma withSign_ne_toInt {negative : Bool} {m : Nat} (hm : 2 ^ 63 ≤ m)
    (hleast : ¬ (negative ∧ m = 2 ^ 63)) (n : Int64) : withSign negative m ≠ n.toInt := by
  have hlow := n.le_toInt
  have hhigh := n.toInt_lt
  unfold withSign
  cases negative with
  | false =>
    simp only [Bool.false_eq_true, if_false]
    omega
  | true =>
    simp only [true_and] at hleast
    simp only [if_true]
    omega

/-- There is an integer for a word exactly if there is one with its sign and number. -/
lemma ofMagnitude?_eq_some_iff {negative : Bool} {m : UInt64} {n : Int64} :
    ofMagnitude? negative m = some n ↔ n.toInt = withSign negative m.toNat := by
  unfold ofMagnitude?
  split
  · next h =>
    obtain ⟨rfl, rfl⟩ := h
    have hmin : withSign true Int64.minValue.toUInt64.toNat = Int64.minValue.toInt := by decide
    rw [hmin, Int64.toInt_inj, Option.some.injEq, eq_comm]
  · next hleast =>
    rw [← UInt64.toNat_inj, toNat_minValue] at hleast
    split
    · next hle =>
      rw [UInt64.le_iff_toNat_le, toNat_maxValue] at hle
      have hm : m.toNat < 2 ^ 63 := by omega
      rw [← toInt_signed negative hm, Int64.toInt_inj, Option.some.injEq, eq_comm]
    · next hgt =>
      rw [UInt64.le_iff_toNat_le, toNat_maxValue] at hgt
      have hm : 2 ^ 63 ≤ m.toNat := by omega
      simpa using (withSign_ne_toInt hm hleast n).symm

/-- A literal spells an integer as it would if integers had no bounds. -/
lemma integer?_eq_some_iff {cs : List Char} {n : Int64} :
    integer? cs = some n ↔ ∃ m, n.toInt = withSign (signed cs).1 m ∧
      magnitude? (radixed (signed cs).2).1 ((radixed (signed cs).2).2.filter (· != '_')) =
        some m := by
  simp only [integer?, Option.bind_eq_some_iff, word?_eq_some_iff, ofMagnitude?_eq_some_iff]
  constructor
  · rintro ⟨w, hw, hn⟩
    exact ⟨w.toNat, hn, hw⟩
  · rintro ⟨m, hn, hm⟩
    have hlt : m < UInt64.size := by
      by_contra hge
      have hm : 2 ^ 63 < m := lt_of_lt_of_le (by decide) (not_lt.1 hge)
      exact withSign_ne_toInt (by omega) (by omega) n hn.symm
    have hword : m.toUInt64.toNat = m := UInt64.toNat_ofNat_of_lt' hlt
    exact ⟨m.toUInt64, hword.symm ▸ hm, hword.symm ▸ hn⟩

lemma integer?_repr (n : Int64) : integer? n.toInt.repr.toList = some n := by
  rw [integer?_eq_some_iff]
  rcases h : n.toInt with m | m
  · have hrepr : (Int.repr (.ofNat m)).toList = Nat.toDigits 10 m := by simp [Int.repr]
    rw [hrepr, signed_toDigits, radixed_toDigits, filter_toDigits, magnitude?_toDigits]
    exact ⟨m, rfl, rfl⟩
  · have hrepr : (Int.repr (.negSucc m)).toList = '-' :: Nat.toDigits 10 (m + 1) := by
      simp [Int.repr]
    rw [hrepr, signed, radixed_toDigits, filter_toDigits, magnitude?_toDigits]
    exact ⟨m + 1, Int.negSucc_eq m, rfl⟩

@[simp] lemma decode_encode (n : Int64) : decode (encode n) = n := by
  rw [decode, encode, integer?_repr, Option.getD_some]

end Staged.Numeral
