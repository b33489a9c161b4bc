import Staged.Text.Numeral

/-!
String literals: text between double quotes with escapes, or between back quotes without. `encode`
writes the first form; `decode` reads both and goes through the bytes that a literal denotes,
because escapes can spell bytes that are no text.
-/

namespace Staged.Quoted

open Numeral (digit?)

/-- The characters with an escape of their own, each after the letter that stands for it. -/
def named : List (Char × Char) :=
  [('a', '\x07'), ('b', '\x08'), ('f', '\x0c'), ('n', '\n'), ('r', '\r'), ('t', '\t'),
   ('v', '\x0b'), ('\\', '\\'), ('"', '"')]

/-- A character inside double quotes: by its letter, a control character in two hexadecimal
digits, and any other as it is. -/
def escape (c : Char) : List Char :=
  match named.find? (·.2 == c) with
  | some (letter, _) => ['\\', letter]
  | none =>
    if c.toNat < 0x20 ∨ c.toNat = 0x7f then
      ['\\', 'x', Nat.digitChar (c.toNat / 16), Nat.digitChar (c.toNat % 16)]
    else [c]

/-- The literal that denotes `s`. -/
def encode (s : String) : String := String.ofList ('"' :: s.toList.flatMap escape ++ ['"'])

/-- Reads exactly `count` digits after the number `n`. -/
def digits? (radix : Nat) : (count n : Nat) → List Char → Option (Nat × List Char)
  | 0, n, cs => some (n, cs)
  | _ + 1, _, [] => none
  | count + 1, n, c :: cs => (digit? radix c).bind fun d => digits? radix count (radix * n + d) cs

/-- The bytes of the character with number `n`, if there is one. -/
def scalar? (n : Nat) : Option (List UInt8) :=
  if n.isValidChar then some (String.utf8EncodeChar (Char.ofNat n)) else none

/-- One escape, after its backslash: the bytes it denotes and the text behind it. -/
def escaped? : List Char → Option (List UInt8 × List Char)
  | [] => none
  | 'x' :: cs => (digits? 16 2 0 cs).map fun (n, rest) => ([n.toUInt8], rest)
  | 'u' :: cs => (digits? 16 4 0 cs).bind fun (n, rest) => (scalar? n).map (·, rest)
  | 'U' :: cs => (digits? 16 8 0 cs).bind fun (n, rest) => (scalar? n).map (·, rest)
  | c :: cs =>
    match named.lookup c with
    | some d => some (String.utf8EncodeChar d, cs)
    | none => (digits? 8 3 0 (c :: cs)).bind fun (n, rest) =>
        if n < 256 then some ([n.toUInt8], rest) else none

/-- One item between double quotes: the bytes it denotes and the text behind it. -/
def item? : List Char → Option (List UInt8 × List Char)
  | [] => none
  | '"' :: _ => none
  | '\n' :: _ => none
  | '\\' :: cs => escaped? cs
  | c :: cs => some (String.utf8EncodeChar c, cs)

theorem digits?_length {radix count n m : Nat} {cs rest : List Char}
    (h : digits? radix count n cs = some (m, rest)) : rest.length + count = cs.length := by
  induction count generalizing n cs with
  | zero => simp_all [digits?]
  | succ count ih =>
    cases cs with
    | nil => simp [digits?] at h
    | cons c cs =>
      obtain ⟨d, -, h⟩ := Option.bind_eq_some_iff.1 h
      have := ih h
      simp only [List.length_cons]
      omega

theorem escaped?_length {cs rest : List Char} {bytes : List UInt8}
    (h : escaped? cs = some (bytes, rest)) : rest.length < cs.length := by
  unfold escaped? at h
  split at h
  · simp at h
  · obtain ⟨⟨n, r⟩, hd, h⟩ := Option.map_eq_some_iff.1 h
    have := digits?_length hd
    simp only [Prod.mk.injEq] at h
    simp only [List.length_cons, ← h.2]
    omega
  · obtain ⟨⟨n, r⟩, hd, h⟩ := Option.bind_eq_some_iff.1 h
    have := digits?_length hd
    simp only [Option.map_eq_some_iff, Prod.mk.injEq] at h
    obtain ⟨_, _, _, rfl⟩ := h
    simp only [List.length_cons]
    omega
  · obtain ⟨⟨n, r⟩, hd, h⟩ := Option.bind_eq_some_iff.1 h
    have := digits?_length hd
    simp only [Option.map_eq_some_iff, Prod.mk.injEq] at h
    obtain ⟨_, _, _, rfl⟩ := h
    simp only [List.length_cons]
    omega
  · split at h
    · simp only [Option.some.injEq, Prod.mk.injEq] at h
      simp [← h.2]
    · obtain ⟨⟨n, r⟩, hd, h⟩ := Option.bind_eq_some_iff.1 h
      have := digits?_length hd
      dsimp only at h
      split at h
      · simp only [Option.some.injEq, Prod.mk.injEq] at h
        rw [← h.2]
        omega
      · simp at h

theorem item?_length {cs rest : List Char} {bytes : List UInt8}
    (h : item? cs = some (bytes, rest)) : rest.length < cs.length := by
  unfold item? at h
  split at h
  · simp at h
  · simp at h
  · simp at h
  · have := escaped?_length h
    simp only [List.length_cons]
    omega
  · simp only [Option.some.injEq, Prod.mk.injEq] at h
    simp [← h.2]

/-- The bytes that the items `cs` denote. -/
def contents? (cs : List Char) : Option (List UInt8) :=
  match cs with
  | [] => some []
  | c :: cs =>
    match _h : item? (c :: cs) with
    | none => none
    | some (bytes, rest) => (contents? rest).map (bytes ++ ·)
  termination_by cs.length
  decreasing_by exact item?_length _h

/-- The bytes that a literal denotes, if it is well formed. Carriage returns between back quotes
are dropped. -/
def bytes? : List Char → Option (List UInt8)
  | [] => none
  | quote :: cs =>
    if cs.getLast? ≠ some quote then none
    else if quote = '"' then contents? cs.dropLast
    else if quote = '\x60' then
      if '\x60' ∈ cs.dropLast then none
      else some ((cs.dropLast.filter (· != '\r')).flatMap String.utf8EncodeChar)
    else none

/-- The text that a literal denotes, and `none` if its bytes are no text. A malformed literal
counts as the empty text. -/
def decode (text : String) : Option String :=
  match bytes? text.toList with
  | some bytes => String.fromUTF8? bytes.toByteArray
  | none => some ""

end Staged.Quoted
