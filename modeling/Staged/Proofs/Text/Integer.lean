import Staged.Proofs.Text.Grammar
import Staged.Proofs.Text.Numeral

/-!
The grammar of integer literals, with the integer that each literal denotes, however large, and the
decoder against it: it finds this integer if 64 bits hold it, and zero otherwise.
-/

namespace Staged.Numeral

open Quoted (IsDigit Spells)

/-! ### The grammar -/

/-- A literal, whether its sign is a minus, and what follows the sign, if there is one. -/
inductive Signed : List Char → Bool → List Char → Prop
  | minus {cs : List Char} : Signed ('-' :: cs) true cs
  | plus {cs : List Char} : Signed ('+' :: cs) false cs
  | none {cs : List Char} (minus : cs.head? ≠ some '-') (plus : cs.head? ≠ some '+') :
      Signed cs false cs

/-- A text, the radix it announces, and what follows the announcement. -/
inductive Announces : List Char → Nat → List Char → Prop
  | hexadecimal {x : Char} {cs : List Char} (h : x = 'x' ∨ x = 'X') :
      Announces ('0' :: x :: cs) 16 cs
  | octal {o : Char} {cs : List Char} (h : o = 'o' ∨ o = 'O') : Announces ('0' :: o :: cs) 8 cs
  | binary {b : Char} {cs : List Char} (h : b = 'b' ∨ b = 'B') : Announces ('0' :: b :: cs) 2 cs
  /-- A leading zero before anything else. -/
  | zero {c : Char} {cs : List Char} (h : c ∉ ['x', 'X', 'o', 'O', 'b', 'B']) :
      Announces ('0' :: c :: cs) 8 (c :: cs)
  | decimal {cs : List Char} (h : ∀ c ds, cs ≠ '0' :: c :: ds) : Announces cs 10 cs

/-- A literal and the integer it denotes. Between the digits underscores do not count. -/
inductive Denotes (literal : List Char) : Int → Prop
  | intro {negative : Bool} {body rest : List Char} {radix m : Nat}
      (sign : Signed literal negative body) (announced : Announces body radix rest)
      (nonempty : rest.filter (· != '_') ≠ []) (digits : Spells radix (rest.filter (· != '_')) m) :
      Denotes literal (withSign negative m)

/-! ### The parts of a literal -/

lemma signed_eq_iff {cs body : List Char} {negative : Bool} :
    signed cs = (negative, body) ↔ Signed cs negative body := by
  constructor
  · intro h
    unfold signed at h
    split at h
    · obtain ⟨rfl, rfl⟩ := Prod.mk.inj h
      exact .minus
    · obtain ⟨rfl, rfl⟩ := Prod.mk.inj h
      exact .plus
    · next hminus hplus =>
      obtain ⟨rfl, rfl⟩ := Prod.mk.inj h
      refine .none (fun hhead => ?_) (fun hhead => ?_)
      · obtain ⟨ds, hds⟩ := List.head?_eq_some_iff.1 hhead
        exact hminus ds hds
      · obtain ⟨ds, hds⟩ := List.head?_eq_some_iff.1 hhead
        exact hplus ds hds
  · intro h
    cases h with
    | minus => rfl
    | plus => rfl
    | none minus plus =>
      unfold signed
      split
      · simp at minus
      · simp at plus
      · rfl

lemma radixed_eq_iff {cs rest : List Char} {radix : Nat} :
    radixed cs = (radix, rest) ↔ Announces cs radix rest := by
  constructor
  · intro h
    unfold radixed at h
    split at h <;> obtain ⟨rfl, rfl⟩ := Prod.mk.inj h
    · exact .hexadecimal (.inl rfl)
    · exact .hexadecimal (.inr rfl)
    · exact .octal (.inl rfl)
    · exact .octal (.inr rfl)
    · exact .binary (.inl rfl)
    · exact .binary (.inr rfl)
    · refine .zero ?_
      simp_all
    · refine .decimal ?_
      simp_all
  · intro h
    cases h with
    | hexadecimal h => rcases h with rfl | rfl <;> rfl
    | octal h => rcases h with rfl | rfl <;> rfl
    | binary h => rcases h with rfl | rfl <;> rfl
    | zero h =>
      simp only [List.mem_cons, List.not_mem_nil, or_false, not_or] at h
      unfold radixed
      split <;> simp_all
    | decimal h =>
      unfold radixed
      split <;> simp_all

lemma Announces.radix_le {cs rest : List Char} {radix : Nat} (h : Announces cs radix rest) :
    radix ≤ 16 := by
  cases h <;> decide

/-- To append all digits is to read as many as there are. -/
lemma digits?_length_eq (radix n : Nat) (cs : List Char) :
    Quoted.digits? radix cs.length n cs = (accumulate? radix n cs).map (·, []) := by
  induction cs generalizing n with
  | nil => rfl
  | cons c cs ih =>
    rw [List.length_cons, Quoted.digits?]
    rcases h : digit? radix c with _ | d
    · simp [accumulate?, h]
    · rw [Option.bind_some, ih]
      simp [accumulate?, h]

lemma accumulate?_eq_some_iff {radix n m : Nat} {cs : List Char} (hradix : radix ≤ 16) :
    accumulate? radix n cs = some m ↔ ∃ ds, List.Forall₂ (IsDigit radix) cs ds ∧
      m = ds.foldl (fun n d => radix * n + d) n := by
  have hread : accumulate? radix n cs = some m ↔
      Quoted.digits? radix cs.length n cs = some (m, []) := by
    simp [digits?_length_eq]
  rw [hread, Quoted.digits?_eq_some_iff hradix]
  constructor
  · rintro ⟨front, ds, hcs, -, hds, hm⟩
    rw [List.append_nil] at hcs
    exact ⟨ds, hcs ▸ hds, hm⟩
  · rintro ⟨ds, hds, hm⟩
    exact ⟨cs, ds, (List.append_nil cs).symm, rfl, hds, hm⟩

lemma magnitude?_eq_some_iff {radix m : Nat} {cs : List Char} (hradix : radix ≤ 16) :
    magnitude? radix cs = some m ↔ cs ≠ [] ∧ Spells radix cs m := by
  rw [Quoted.spells_iff, ← accumulate?_eq_some_iff hradix]
  cases cs with
  | nil => simp [magnitude?]
  | cons c cs => simp [magnitude?]

/-! ### The decoder -/

lemma denotes_iff {literal : List Char} {n : Int} :
    Denotes literal n ↔ ∃ m, n = withSign (signed literal).1 m ∧
      magnitude? (radixed (signed literal).2).1
        ((radixed (signed literal).2).2.filter (· != '_')) = some m := by
  rcases hsign : signed literal with ⟨negative, body⟩
  rcases hradix : radixed body with ⟨radix, rest⟩
  have hannounced := radixed_eq_iff.1 hradix
  simp only [magnitude?_eq_some_iff hannounced.radix_le]
  constructor
  · rintro ⟨hsign', hannounced', hnonempty, hdigits⟩
    obtain ⟨rfl, rfl⟩ := Prod.mk.inj (hsign.symm.trans (signed_eq_iff.2 hsign'))
    obtain ⟨rfl, rfl⟩ := Prod.mk.inj (hradix.symm.trans (radixed_eq_iff.2 hannounced'))
    exact ⟨_, rfl, hnonempty, hdigits⟩
  · rintro ⟨m, rfl, hnonempty, hdigits⟩
    exact .intro (signed_eq_iff.1 hsign) hannounced hnonempty hdigits

/-- A literal denotes no more than one integer. -/
lemma Denotes.unique {literal : List Char} {n n' : Int} (h : Denotes literal n)
    (h' : Denotes literal n') : n = n' := by
  obtain ⟨m, rfl, hm⟩ := denotes_iff.1 h
  obtain ⟨m', rfl, hm'⟩ := denotes_iff.1 h'
  rw [Option.some.inj (hm.symm.trans hm')]

lemma integer?_eq_some_iff_denotes {literal : List Char} {n : Int64} :
    integer? literal = some n ↔ Denotes literal n.toInt := by
  rw [integer?_eq_some_iff, denotes_iff]

/-- **The decoder agrees with the grammar.** The integer that a literal denotes is unique, and the
literal decodes to it if 64 bits hold it. Otherwise, and if the text is no literal, it decodes to
zero. -/
theorem toInt_decode (literal : String) :
    (∀ n, Denotes literal.toList n →
      (∀ other, Denotes literal.toList other → other = n) ∧
      (decode literal).toInt = if -2 ^ 63 ≤ n ∧ n ≤ 2 ^ 63 - 1 then n else 0) ∧
    ((∀ n, ¬ Denotes literal.toList n) → decode literal = 0) := by
  refine ⟨fun n hn => ⟨fun other hother => hother.unique hn, ?_⟩, fun hnone => ?_⟩
  · split
    · next hrange =>
      have hword : (Int64.ofInt n).toInt = n := Int64.toInt_ofInt_of_le hrange.1 (by omega)
      have hinteger : integer? literal.toList = some (Int64.ofInt n) :=
        integer?_eq_some_iff_denotes.2 (hword.symm ▸ hn)
      rw [decode, hinteger, Option.getD_some, hword]
    · next hrange =>
      have hinteger : integer? literal.toList = none := by
        refine Option.eq_none_iff_forall_ne_some.2 fun w hw => hrange ?_
        have hlow := w.le_toInt
        have hhigh := w.toInt_lt
        have hwn : w.toInt = n := (integer?_eq_some_iff_denotes.1 hw).unique hn
        omega
      rw [decode, hinteger, Option.getD_none, Int64.toInt_zero]
  · have hinteger : integer? literal.toList = none :=
      Option.eq_none_iff_forall_ne_some.2 fun w hw => hnone _ (integer?_eq_some_iff_denotes.1 hw)
    rw [decode, hinteger, Option.getD_none]

/-- The least integer in hexadecimal digits, the first integer that 64 bits do not hold, and a text
with two signs. -/
theorem toInt_decode_least :
    let least := "-0x8000_0000_0000_0000"
    let beyond := "9223372036854775808"
    let malformed := "--1"
    (Denotes least.toList (-2 ^ 63) ∧ (decode least).toInt = -2 ^ 63) ∧
      (Denotes beyond.toList (2 ^ 63) ∧ (decode beyond).toInt = 0) ∧
      (∀ n, ¬ Denotes malformed.toList n) ∧ decode malformed = 0 := by
  intro least beyond malformed
  have hleast : Denotes least.toList (-2 ^ 63) :=
    denotes_iff.2 ⟨2 ^ 63, by decide +kernel, by decide +kernel⟩
  have hbeyond : Denotes beyond.toList (2 ^ 63) :=
    denotes_iff.2 ⟨2 ^ 63, by decide +kernel, by decide +kernel⟩
  have hmalformed : ∀ n, ¬ Denotes malformed.toList n := by
    intro n h
    obtain ⟨m, -, hm⟩ := denotes_iff.1 h
    have hnone : magnitude? (radixed (signed malformed.toList).2).1
        ((radixed (signed malformed.toList).2).2.filter (· != '_')) = none := by decide +kernel
    simp [hnone] at hm
  exact ⟨⟨hleast, ((toInt_decode least).1 _ hleast).2⟩,
    ⟨hbeyond, ((toInt_decode beyond).1 _ hbeyond).2⟩, hmalformed,
    (toInt_decode malformed).2 hmalformed⟩

end Staged.Numeral
