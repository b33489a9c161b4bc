import Staged.Proofs.Text.Quoted
import Mathlib.Data.Nat.Digits.Defs
import Mathlib.Data.List.Forall2

/-!
The grammar of string literals, with the bytes that each literal denotes, and the decoder against
it: reading a literal finds a derivation of it if there is one, and there is never more than one.
-/

namespace Staged.Quoted

open Numeral (digit?)

/-! ### The grammar -/

/-- `c` is the digit of value `d`. Digits beyond nine are small or capital letters. -/
def IsDigit (radix : Nat) (c : Char) (d : Nat) : Prop :=
  d < radix ∧ (c = Nat.digitChar d ∨ c = (Nat.digitChar d).toUpper)

/-- The digits `cs`, the most significant one first, spell the number `n`. -/
def Spells (radix : Nat) (cs : List Char) (n : Nat) : Prop :=
  ∃ ds, List.Forall₂ (IsDigit radix) cs ds ∧ n = Nat.ofDigits radix ds.reverse

/-- The letters that stand for one byte after a backslash. -/
inductive Named : Char → UInt8 → Prop
  | alert : Named 'a' 0x07
  | backspace : Named 'b' 0x08
  | formFeed : Named 'f' 0x0c
  | lineFeed : Named 'n' 0x0a
  | carriageReturn : Named 'r' 0x0d
  | tab : Named 't' 0x09
  | verticalTab : Named 'v' 0x0b
  | backslash : Named '\\' 0x5c
  | quote : Named '"' 0x22

/-- One item between double quotes and the bytes it denotes. -/
inductive Item : List Char → List UInt8 → Prop
  | plain {c : Char} (quote : c ≠ '"') (backslash : c ≠ '\\') (line : c ≠ '\n') :
      Item [c] (String.utf8EncodeChar c)
  | named {letter : Char} {b : UInt8} (h : Named letter b) : Item ['\\', letter] [b]
  | hexadecimal {cs : List Char} {b : UInt8} (h : Spells 16 cs b.toNat) (length : cs.length = 2) :
      Item ('\\' :: 'x' :: cs) [b]
  | octal {cs : List Char} {b : UInt8} (h : Spells 8 cs b.toNat) (length : cs.length = 3) :
      Item ('\\' :: cs) [b]
  | scalar {cs : List Char} {c : Char} (h : Spells 16 cs c.toNat) (length : cs.length = 4) :
      Item ('\\' :: 'u' :: cs) (String.utf8EncodeChar c)
  | longScalar {cs : List Char} {c : Char} (h : Spells 16 cs c.toNat) (length : cs.length = 8) :
      Item ('\\' :: 'U' :: cs) (String.utf8EncodeChar c)

/-- Items one after the other, and their bytes together. -/
inductive Items : List Char → List UInt8 → Prop
  | nil : Items [] []
  | cons {cs ds : List Char} {bytes rest : List UInt8} (head : Item cs bytes)
      (tail : Items ds rest) : Items (cs ++ ds) (bytes ++ rest)

/-- A literal and the bytes it denotes. -/
inductive Denotes : List Char → List UInt8 → Prop
  /-- Between back quotes all stands for itself, but carriage returns are dropped. -/
  | raw {cs : List Char} (h : '\x60' ∉ cs) : Denotes ('\x60' :: (cs ++ ['\x60']))
      ((cs.flatMap String.utf8EncodeChar).filter (· ≠ 0x0d))
  | interpreted {cs : List Char} {bytes : List UInt8} (h : Items cs bytes) :
      Denotes ('"' :: (cs ++ ['"'])) bytes

/-! ### Digits -/

lemma digit?_of_isDigit {radix d : Nat} {c : Char} (hradix : radix ≤ 16) (h : IsDigit radix c d) :
    digit? radix c = some d := by
  obtain ⟨hlt, hc⟩ := h
  have hd : d < 16 := Nat.lt_of_lt_of_le hlt hradix
  rcases hc with rfl | rfl <;> interval_cases d <;> exact if_pos hlt

lemma toNat_between {lo hi : UInt32} {c : Char} (h : lo ≤ c.val ∧ c.val ≤ hi) :
    lo.toNat ≤ c.toNat ∧ c.toNat ≤ hi.toNat :=
  h.imp UInt32.le_iff_toNat_le.1 UInt32.le_iff_toNat_le.1

lemma isDigit_of_digit? {radix d : Nat} {c : Char} (hradix : radix ≤ 16)
    (h : digit? radix c = some d) : IsDigit radix c d := by
  simp only [digit?, Option.ite_none_right_eq_some, Option.some.injEq] at h
  obtain ⟨hlt, hvalue⟩ := h
  rw [hvalue] at hlt
  refine ⟨hlt, ?_⟩
  have hd : d < 16 := Nat.lt_of_lt_of_le hlt hradix
  split at hvalue
  · next hdigit =>
    have hrange := toNat_between ((Bool.and_eq_true_iff.1 hdigit).imp of_decide_eq_true
      of_decide_eq_true)
    change 48 ≤ c.toNat ∧ c.toNat ≤ 57 at hrange
    change c.toNat - 48 = d at hvalue
    refine .inl (Char.toNat_inj.1 ?_)
    rw [Nat.toNat_digitChar_of_lt_ten (by omega)]
    omega
  · split at hvalue
    · next hlower =>
      have hrange := toNat_between ((Bool.and_eq_true_iff.1 hlower).imp of_decide_eq_true
        of_decide_eq_true)
      change 97 ≤ c.toNat ∧ c.toNat ≤ 122 at hrange
      change c.toNat - 97 + 10 = d at hvalue
      have hc : c.toNat = 87 + d := by omega
      have h10 : 10 ≤ d := by omega
      refine .inl (Char.toNat_inj.1 (hc.trans ?_))
      interval_cases d <;> rfl
    · split at hvalue
      · next hupper =>
        have hrange := toNat_between (of_decide_eq_true hupper)
        change 65 ≤ c.toNat ∧ c.toNat ≤ 90 at hrange
        change c.toNat - 65 + 10 = d at hvalue
        have hc : c.toNat = 55 + d := by omega
        have h10 : 10 ≤ d := by omega
        refine .inr (Char.toNat_inj.1 (hc.trans ?_))
        interval_cases d <;> rfl
      · omega

lemma digit?_eq_some_iff {radix d : Nat} {c : Char} (hradix : radix ≤ 16) :
    digit? radix c = some d ↔ IsDigit radix c d :=
  ⟨isDigit_of_digit? hradix, digit?_of_isDigit hradix⟩

/-! ### Numbers -/

/-- The value of the digits `ds` behind the number `n`. -/
lemma foldl_digits (radix n : Nat) (ds : List Nat) :
    ds.foldl (fun n d => radix * n + d) n =
      n * radix ^ ds.length + Nat.ofDigits radix ds.reverse := by
  induction ds generalizing n with
  | nil => simp
  | cons d ds ih =>
    rw [List.foldl_cons, ih, List.reverse_cons, Nat.ofDigits_append, List.length_reverse,
      Nat.ofDigits_singleton, List.length_cons, Nat.pow_succ]
    ring

lemma spells_iff {radix n : Nat} {cs : List Char} : Spells radix cs n ↔
    ∃ ds, List.Forall₂ (IsDigit radix) cs ds ∧ n = ds.foldl (fun n d => radix * n + d) 0 := by
  simp [Spells, foldl_digits]

lemma digits?_eq_some_iff {radix count n m : Nat} {cs rest : List Char} (hradix : radix ≤ 16) :
    digits? radix count n cs = some (m, rest) ↔ ∃ front ds, cs = front ++ rest ∧
      front.length = count ∧ List.Forall₂ (IsDigit radix) front ds ∧
      m = ds.foldl (fun n d => radix * n + d) n := by
  induction count generalizing n cs with
  | zero =>
    simp only [digits?, Option.some.injEq, Prod.mk.injEq, List.length_eq_zero_iff]
    constructor
    · rintro ⟨rfl, rfl⟩
      exact ⟨[], [], rfl, rfl, .nil, rfl⟩
    · rintro ⟨_, ds, rfl, rfl, hdigits, rfl⟩
      obtain rfl := List.forall₂_nil_left_iff.1 hdigits
      exact ⟨rfl, rfl⟩
  | succ count ih =>
    cases cs with
    | nil => simp [digits?]
    | cons c cs =>
      rw [digits?, Option.bind_eq_some_iff]
      simp only [digit?_eq_some_iff hradix, ih]
      constructor
      · rintro ⟨d, hd, front, ds, rfl, rfl, hdigits, rfl⟩
        exact ⟨c :: front, d :: ds, rfl, rfl, .cons hd hdigits, rfl⟩
      · rintro ⟨front, ds, hcs, hlength, hdigits, rfl⟩
        cases hdigits with
        | nil => simp at hlength
        | cons hd hdigits =>
          simp at hcs hlength
          obtain ⟨rfl, rfl⟩ := hcs
          exact ⟨_, hd, _, _, rfl, hlength, hdigits, rfl⟩

lemma digits?_of_spells {radix n : Nat} {cs : List Char} (hradix : radix ≤ 16)
    (h : Spells radix cs n) (rest : List Char) :
    digits? radix cs.length 0 (cs ++ rest) = some (n, rest) := by
  obtain ⟨ds, hdigits, hn⟩ := spells_iff.1 h
  exact (digits?_eq_some_iff hradix).2 ⟨cs, ds, rfl, rfl, hdigits, hn⟩

lemma exists_spells_of_digits? {radix count n : Nat} {cs rest : List Char} (hradix : radix ≤ 16)
    (h : digits? radix count 0 cs = some (n, rest)) :
    ∃ front, cs = front ++ rest ∧ front.length = count ∧ Spells radix front n := by
  obtain ⟨front, ds, hcs, hlength, hdigits, hn⟩ := (digits?_eq_some_iff hradix).1 h
  exact ⟨front, hcs, hlength, spells_iff.2 ⟨ds, hdigits, hn⟩⟩

lemma Spells.lt {radix n : Nat} {cs : List Char} (hradix : 1 < radix) (h : Spells radix cs n) :
    n < radix ^ cs.length := by
  obtain ⟨ds, hdigits, rfl⟩ := h
  rw [hdigits.length_eq, ← List.length_reverse]
  refine Nat.ofDigits_lt_base_pow_length hradix fun d hd => ?_
  have hd := List.mem_reverse.1 hd
  induction hdigits with
  | nil => simp at hd
  | cons hc _ ih =>
    rcases List.mem_cons.1 hd with rfl | hd
    · exact hc.1
    · exact ih (List.mem_reverse.2 hd) hd

/-! ### Items -/

lemma lookup_of_named {letter : Char} {b : UInt8} (h : Named letter b) :
    ∃ d, named.lookup letter = some d ∧ String.utf8EncodeChar d = [b] := by
  cases h <;> exact ⟨_, rfl, rfl⟩

lemma named_of_lookup {letter d : Char} (h : named.lookup letter = some d) :
    ∃ b, Named letter b ∧ String.utf8EncodeChar d = [b] := by
  obtain ⟨l₁, l₂, hnamed, -⟩ := List.lookup_eq_some_iff.1 h
  have hmem : (letter, d) ∈ named := by simp [hnamed]
  simp only [named, List.mem_cons, Prod.mk.injEq, List.not_mem_nil, or_false] at hmem
  rcases hmem with ⟨rfl, rfl⟩ | ⟨rfl, rfl⟩ | ⟨rfl, rfl⟩ | ⟨rfl, rfl⟩ | ⟨rfl, rfl⟩ | ⟨rfl, rfl⟩ |
    ⟨rfl, rfl⟩ | ⟨rfl, rfl⟩ | ⟨rfl, rfl⟩
  exacts [⟨_, .alert, rfl⟩, ⟨_, .backspace, rfl⟩, ⟨_, .formFeed, rfl⟩, ⟨_, .lineFeed, rfl⟩,
    ⟨_, .carriageReturn, rfl⟩, ⟨_, .tab, rfl⟩, ⟨_, .verticalTab, rfl⟩, ⟨_, .backslash, rfl⟩,
    ⟨_, .quote, rfl⟩]

/-- No letter that an escape begins with is an octal digit. -/
lemma digit?_eight_of_named {letter : Char} {b : UInt8} (h : Named letter b) :
    digit? 8 letter = none := by
  cases h <;> rfl

lemma toNat_toUInt8 {n : Nat} (h : n < 256) : n.toUInt8.toNat = n := Nat.mod_eq_of_lt h

lemma scalar?_eq_some_iff {n : Nat} {bytes : List UInt8} :
    scalar? n = some bytes ↔ ∃ c : Char, n = c.toNat ∧ bytes = String.utf8EncodeChar c := by
  simp only [scalar?, Option.ite_none_right_eq_some, Option.some.injEq]
  constructor
  · rintro ⟨hvalid, rfl⟩
    refine ⟨Char.ofNat n, ?_, rfl⟩
    rw [Char.ofNat, dif_pos hvalid]
    rfl
  · rintro ⟨c, rfl, rfl⟩
    exact ⟨c.valid, by rw [Char.ofNat_toNat]⟩

/-- What an escape reads after its `u` or `U`. -/
lemma scalar?_after_digits?_iff {count : Nat} {cs rest : List Char} {bytes : List UInt8} :
    ((digits? 16 count 0 cs).bind fun (n, rest) => (scalar? n).map (·, rest)) = some (bytes, rest) ↔
      ∃ (c : Char) (front : List Char), Spells 16 front c.toNat ∧ front.length = count ∧
        cs = front ++ rest ∧ bytes = String.utf8EncodeChar c := by
  simp only [Option.bind_eq_some_iff, Option.map_eq_some_iff, Prod.exists, Prod.mk.injEq,
    scalar?_eq_some_iff]
  constructor
  · rintro ⟨n, rest, hdigits, bytes, ⟨c, rfl, rfl⟩, rfl, rfl⟩
    obtain ⟨front, rfl, hlength, hspells⟩ := exists_spells_of_digits? (by decide) hdigits
    exact ⟨c, front, hspells, hlength, rfl, rfl⟩
  · rintro ⟨c, front, hspells, rfl, rfl, rfl⟩
    exact ⟨_, rest, digits?_of_spells (by decide) hspells rest, _, ⟨c, rfl, rfl⟩, rfl, rfl⟩

/-- Only an octal escape begins with an octal digit. -/
lemma escaped?_of_digit? {c : Char} {d : Nat} (h : digit? 8 c = some d) (cs : List Char) :
    escaped? (c :: cs) = (digits? 8 3 0 (c :: cs)).bind fun (n, rest) =>
      if n < 256 then some ([n.toUInt8], rest) else none := by
  have hne (letter : Char) (hletter : digit? 8 letter = none) : c ≠ letter := by
    rintro rfl
    simp [h] at hletter
  have hlookup : named.lookup c = none := by
    refine Option.eq_none_iff_forall_ne_some.2 fun e he => ?_
    obtain ⟨b, hb, -⟩ := named_of_lookup he
    exact hne c (digit?_eight_of_named hb) rfl
  unfold escaped?
  split
  · contradiction
  · next heq => exact absurd (List.cons.inj heq).1 (hne 'x' rfl)
  · next heq => exact absurd (List.cons.inj heq).1 (hne 'u' rfl)
  · next heq => exact absurd (List.cons.inj heq).1 (hne 'U' rfl)
  · next c' cs' _ _ _ heq =>
    obtain ⟨rfl, rfl⟩ := List.cons.inj heq
    rw [hlookup]

lemma escaped?_of_item {front : List Char} {bytes : List UInt8} (h : Item ('\\' :: front) bytes)
    (rest : List Char) : escaped? (front ++ rest) = some (bytes, rest) := by
  cases h with
  | plain _ backslash _ => exact absurd rfl backslash
  | named h =>
    obtain ⟨d, hlookup, hbytes⟩ := lookup_of_named h
    cases h <;> simp [escaped?, hlookup, hbytes]
  | hexadecimal h length =>
    have hdigits := digits?_of_spells (by decide) h rest
    rw [length] at hdigits
    simp [escaped?, hdigits]
  | @octal _ b h length =>
    obtain _ | ⟨c, cs⟩ := front
    · simp at length
    have hfirst : ∃ d, IsDigit 8 c d := by
      obtain ⟨_, hds, -⟩ := h
      obtain ⟨d, _, hd, -, -⟩ := List.forall₂_cons_left_iff.1 hds
      exact ⟨d, hd⟩
    obtain ⟨d, hd⟩ := hfirst
    have hdigits := digits?_of_spells (by decide) h rest
    rw [length] at hdigits
    rw [List.cons_append] at hdigits ⊢
    rw [escaped?_of_digit? (digit?_of_isDigit (by decide) hd), hdigits]
    simp [b.toNat_lt]
  | scalar h length => exact scalar?_after_digits?_iff.2 ⟨_, _, h, length, rfl, rfl⟩
  | longScalar h length => exact scalar?_after_digits?_iff.2 ⟨_, _, h, length, rfl, rfl⟩

lemma exists_item_of_escaped? {cs rest : List Char} {bytes : List UInt8}
    (h : escaped? cs = some (bytes, rest)) :
    ∃ front, Item ('\\' :: front) bytes ∧ cs = front ++ rest := by
  unfold escaped? at h
  split at h
  · simp at h
  · simp only [Option.map_eq_some_iff, Prod.exists, Prod.mk.injEq] at h
    obtain ⟨n, rest, hdigits, rfl, rfl⟩ := h
    obtain ⟨front, rfl, hlength, hspells⟩ := exists_spells_of_digits? (by decide) hdigits
    have hlt := hspells.lt (by decide)
    rw [hlength] at hlt
    rw [← toNat_toUInt8 hlt] at hspells
    exact ⟨_, .hexadecimal hspells hlength, rfl⟩
  · obtain ⟨c, front, hspells, hlength, rfl, rfl⟩ := scalar?_after_digits?_iff.1 h
    exact ⟨_, .scalar hspells hlength, rfl⟩
  · obtain ⟨c, front, hspells, hlength, rfl, rfl⟩ := scalar?_after_digits?_iff.1 h
    exact ⟨_, .longScalar hspells hlength, rfl⟩
  · split at h
    · next d hlookup =>
      obtain ⟨b, hnamed, hbytes⟩ := named_of_lookup hlookup
      simp only [Option.some.injEq, Prod.mk.injEq] at h
      obtain ⟨rfl, rfl⟩ := h
      rw [hbytes]
      exact ⟨_, .named hnamed, rfl⟩
    · simp only [Option.bind_eq_some_iff, Prod.exists, Option.ite_none_right_eq_some,
        Option.some.injEq, Prod.mk.injEq] at h
      obtain ⟨n, rest, hdigits, hlt, rfl, rfl⟩ := h
      obtain ⟨front, hcs, hlength, hspells⟩ := exists_spells_of_digits? (by decide) hdigits
      rw [← toNat_toUInt8 hlt] at hspells
      exact ⟨front, .octal hspells hlength, hcs⟩

lemma item?_eq_some_iff {cs rest : List Char} {bytes : List UInt8} :
    item? cs = some (bytes, rest) ↔ ∃ front, Item front bytes ∧ cs = front ++ rest := by
  constructor
  · intro h
    unfold item? at h
    split at h
    · simp at h
    · simp at h
    · simp at h
    · obtain ⟨front, hitem, rfl⟩ := exists_item_of_escaped? h
      exact ⟨_, hitem, rfl⟩
    · next c cs hquote hline hslash =>
      simp only [Option.some.injEq, Prod.mk.injEq] at h
      obtain ⟨rfl, rfl⟩ := h
      exact ⟨[c], .plain hquote hslash hline, rfl⟩
  · rintro ⟨front, hitem, rfl⟩
    cases hitem with
    | plain quote backslash line => exact item?_plain quote line backslash rest
    | named h => exact escaped?_of_item (.named h) rest
    | hexadecimal h length => exact escaped?_of_item (.hexadecimal h length) rest
    | octal h length => exact escaped?_of_item (.octal h length) rest
    | scalar h length => exact escaped?_of_item (.scalar h length) rest
    | longScalar h length => exact escaped?_of_item (.longScalar h length) rest

/-! ### Literals -/

lemma contents?_eq_some_iff {cs : List Char} {bytes : List UInt8} :
    contents? cs = some bytes ↔ Items cs bytes := by
  constructor
  · intro h
    fun_induction contents? cs generalizing bytes with
    | case1 =>
      obtain rfl := Option.some.inj h
      exact .nil
    | case2 => simp at h
    | case3 c cs bytes' rest hitem ih =>
      obtain ⟨rest', hrest, rfl⟩ := Option.map_eq_some_iff.1 h
      obtain ⟨front, hfront, hcs⟩ := item?_eq_some_iff.1 hitem
      rw [hcs]
      exact .cons hfront (ih hrest)
  · intro h
    induction h with
    | nil => simp [contents?]
    | cons head tail ih =>
      rw [contents?_of_item? (item?_eq_some_iff.2 ⟨_, head, rfl⟩), ih, Option.map_some]

/-- No character but a carriage return has its byte in its encoding. -/
lemma ne_of_mem_utf8EncodeChar {c : Char} {b : UInt8} (hc : c ≠ '\r')
    (hb : b ∈ String.utf8EncodeChar c) : b ≠ 0x0d := by
  have hval : c.val.toNat ≠ 13 := fun h => hc (Char.toNat_inj.1 h)
  suffices hmod : ∃ n, b = UInt8.ofNat n ∧ n % 256 ≠ 13 by
    obtain ⟨n, rfl, hn⟩ := hmod
    exact fun h => hn (congrArg UInt8.toNat h)
  unfold String.utf8EncodeChar at hb
  dsimp only at hb
  split_ifs at hb with h7 h11 h16
  all_goals
    simp only [List.mem_cons, List.not_mem_nil, or_false] at hb
  · exact ⟨_, hb, by omega⟩
  · rcases hb with hb | hb <;> exact ⟨_, hb, by omega⟩
  · rcases hb with hb | hb | hb <;> exact ⟨_, hb, by omega⟩
  · rcases hb with hb | hb | hb | hb <;> exact ⟨_, hb, by omega⟩

lemma filter_utf8EncodeChar (c : Char) : (String.utf8EncodeChar c).filter (· ≠ 0x0d) =
    if c = '\r' then [] else String.utf8EncodeChar c := by
  split
  · next hc => subst hc; rfl
  · next hc => exact List.filter_eq_self.2 fun b hb => by simpa using ne_of_mem_utf8EncodeChar hc hb

lemma flatMap_filter_utf8EncodeChar (cs : List Char) :
    (cs.filter (· != '\r')).flatMap String.utf8EncodeChar =
      (cs.flatMap String.utf8EncodeChar).filter (· ≠ 0x0d) := by
  induction cs with
  | nil => rfl
  | cons c cs ih =>
    rw [List.flatMap_cons, List.filter_append, ← ih, filter_utf8EncodeChar]
    by_cases hc : c = '\r' <;> simp [hc]

lemma bytes?_eq_some_iff {cs : List Char} {bytes : List UInt8} :
    bytes? cs = some bytes ↔ Denotes cs bytes := by
  constructor
  · intro h
    cases cs with
    | nil => simp [bytes?] at h
    | cons quote cs =>
      simp only [bytes?, ne_eq, ite_not] at h
      split at h
      · next hlast =>
        obtain ⟨body, rfl⟩ := List.getLast?_eq_some_iff.1 hlast
        rw [List.dropLast_concat] at h
        split at h
        · next hquote =>
          subst hquote
          exact .interpreted (contents?_eq_some_iff.1 h)
        · split at h
          · next hquote =>
            subst hquote
            split at h
            · simp at h
            · next hinner =>
              obtain rfl := Option.some.inj h
              rw [flatMap_filter_utf8EncodeChar]
              exact .raw hinner
          · simp at h
      · simp at h
  · intro h
    cases h with
    | raw h => simp [bytes?, h, flatMap_filter_utf8EncodeChar]
    | interpreted h => simp [bytes?, contents?_eq_some_iff.2 h]

lemma fromUTF8?_eq_some_iff {bytes : ByteArray} {s : String} :
    String.fromUTF8? bytes = some s ↔ s.toUTF8 = bytes := by
  simp only [String.fromUTF8?, Option.dite_none_right_eq_some, Option.some.injEq]
  constructor
  · rintro ⟨_, rfl⟩
    rfl
  · rintro rfl
    exact ⟨s.isValidUTF8, rfl⟩

/-- **The decoder accepts exactly the literals.** The bytes that a literal denotes are unique, and it
decodes to the text that is encoded by them, if there is one, and to nothing otherwise. Any other
text counts as the empty one. -/
theorem decode_denotes (literal : String) :
    (∀ bytes, Denotes literal.toList bytes →
      (∀ other, Denotes literal.toList other → other = bytes) ∧
      ∀ s : String, decode literal = some s ↔ s.toUTF8 = bytes.toByteArray) ∧
    ((∀ bytes, ¬ Denotes literal.toList bytes) → decode literal = some "") := by
  simp only [← bytes?_eq_some_iff]
  refine ⟨fun bytes hbytes => ⟨fun other hother => ?_, fun s => ?_⟩, fun hnone => ?_⟩
  · exact Option.some.inj (hother.symm.trans hbytes)
  · simp only [decode, hbytes, fromUTF8?_eq_some_iff]
  · have hbytes : bytes? literal.toList = none := Option.eq_none_iff_forall_ne_some.2 hnone
    simp only [decode, hbytes]

/-- Two adjacent escapes, a hexadecimal and an octal one, denote the two bytes of one character. An
octal escape beyond a byte is no item, so the literal counts as the empty text. -/
theorem decode_denotes_adjacent :
    let literal := "\"\\xc3\\251\""
    let malformed := "\"a\\400\""
    (Denotes literal.toList [0xc3, 0xa9] ∧ decode literal = some "é") ∧
      (∀ bytes, ¬ Denotes malformed.toList bytes) ∧ decode malformed = some "" := by
  intro literal malformed
  have hhexadecimal : Item ['\\', 'x', 'c', '3'] [0xc3] :=
    .hexadecimal ⟨[12, 3], .cons ⟨by decide, .inl rfl⟩ (.cons ⟨by decide, .inl rfl⟩ .nil), rfl⟩ rfl
  have hoctal : Item ['\\', '2', '5', '1'] [0xa9] :=
    .octal ⟨[2, 5, 1], .cons ⟨by decide, .inl rfl⟩ (.cons ⟨by decide, .inl rfl⟩
      (.cons ⟨by decide, .inl rfl⟩ .nil)), rfl⟩ rfl
  have hdenotes : Denotes literal.toList [0xc3, 0xa9] := by
    simpa [literal] using Denotes.interpreted (.cons hhexadecimal (.cons hoctal .nil))
  have hmalformed : ∀ bytes, ¬ Denotes malformed.toList bytes := by
    intro bytes h
    have hnone : bytes? malformed.toList = none := by decide +kernel
    simpa [hnone] using bytes?_eq_some_iff.2 h
  obtain ⟨-, hdecode⟩ := (decode_denotes literal).1 _ hdenotes
  exact ⟨⟨hdenotes, (hdecode "é").2 rfl⟩, hmalformed, (decode_denotes malformed).2 hmalformed⟩

end Staged.Quoted
