import Staged.Text.Quoted
import Mathlib.Tactic.IntervalCases
import Mathlib.Tactic.Lemma

/-!
The literal that denotes a text reads back as that text. Each character is written as one item, and
reading that item gives the bytes of the character, whatever stands behind it.
-/

namespace Staged.Quoted

open Numeral (digit?)

lemma digit?_hex {d : Nat} (h : d < 16) : digit? 16 (Nat.digitChar d) = some d := by
  interval_cases d <;> rfl

lemma item?_named (rest : List Char) :
    ∀ p ∈ named, item? ('\\' :: p.1 :: rest) = some (String.utf8EncodeChar p.2, rest) := by
  simp [named, item?, escaped?, List.lookup_cons]

lemma utf8EncodeChar_ascii {c : Char} (h : c.toNat < 128) :
    String.utf8EncodeChar c = [c.toNat.toUInt8] := by
  refine String.utf8EncodeChar_eq_singleton ?_
  have : c.val ≤ 127 := by
    rw [UInt32.le_iff_toNat_le]
    exact Nat.le_of_lt_succ h
  simp [Char.utf8Size, this]

lemma item?_hex {c : Char} (h : c.toNat < 128) (rest : List Char) :
    item? ('\\' :: 'x' :: Nat.digitChar (c.toNat / 16) :: Nat.digitChar (c.toNat % 16) :: rest) =
      some (String.utf8EncodeChar c, rest) := by
  have hhigh := digit?_hex (d := c.toNat / 16) (by omega)
  have hlow := digit?_hex (d := c.toNat % 16) (Nat.mod_lt _ (by omega))
  have hsum : 16 * (c.toNat / 16) + c.toNat % 16 = c.toNat := Nat.div_add_mod _ 16
  simp [item?, escaped?, digits?, hhigh, hlow, hsum, utf8EncodeChar_ascii h]

lemma item?_plain {c : Char} (hquote : c ≠ '"') (hline : c ≠ '\n') (hslash : c ≠ '\\')
    (rest : List Char) : item? (c :: rest) = some (String.utf8EncodeChar c, rest) := by
  unfold item?
  split <;> simp_all

lemma item?_escape (c : Char) (rest : List Char) :
    item? (escape c ++ rest) = some (String.utf8EncodeChar c, rest) := by
  unfold escape
  split
  · next letter d hfind =>
    have hmem := List.mem_of_find?_eq_some hfind
    have hd : d = c := by simpa using List.find?_some hfind
    subst hd
    exact item?_named rest _ hmem
  · next hfind =>
    split
    · next hcontrol => exact item?_hex (by omega) rest
    · have hnamed : ∀ p ∈ named, p.2 ≠ c := by simpa using hfind
      refine item?_plain ?_ ?_ ?_ rest
      · exact fun h => hnamed ('"', '"') (by simp [named]) h.symm
      · exact fun h => hnamed ('n', '\n') (by simp [named]) h.symm
      · exact fun h => hnamed ('\\', '\\') (by simp [named]) h.symm

lemma contents?_of_item? {cs rest : List Char} {bytes : List UInt8}
    (h : item? cs = some (bytes, rest)) : contents? cs = (contents? rest).map (bytes ++ ·) := by
  cases cs with
  | nil => simp [item?] at h
  | cons c cs =>
    rw [contents?]
    split
    · next h' => simp [h] at h'
    · next bytes' rest' h' =>
      rw [h, Option.some.injEq, Prod.mk.injEq] at h'
      rw [h'.1, h'.2]

lemma contents?_escape (cs : List Char) :
    contents? (cs.flatMap escape) = some (cs.flatMap String.utf8EncodeChar) := by
  induction cs with
  | nil => simp [contents?]
  | cons c cs ih =>
    rw [List.flatMap_cons, contents?_of_item? (item?_escape c _), ih]
    simp

lemma bytes?_encode (s : String) :
    bytes? (encode s).toList = some (s.toList.flatMap String.utf8EncodeChar) := by
  simp [encode, bytes?, contents?_escape]

/-- The characters of a text, encoded one after the other, are its bytes. -/
lemma toByteArray_flatMap (s : String) :
    (s.toList.flatMap String.utf8EncodeChar).toByteArray = s.toByteArray :=
  String.utf8Encode_toList

@[simp] lemma decode_encode (s : String) : decode (encode s) = some s := by
  simp [decode, bytes?_encode, toByteArray_flatMap, String.fromUTF8?, String.fromUTF8,
    s.isValidUTF8]

end Staged.Quoted
