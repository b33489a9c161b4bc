import Staged.Yaml.Scalar
import Mathlib.Tactic.Lemma

/-!
Plain words in a text: letters, figures and underscores. Such a word is read as it is, up to the
colon or the line break behind it.
-/

namespace Staged.Yaml

/-- The characters of plain words. They begin nothing but a plain scalar, and end none. -/
def isPlain (c : Char) : Bool := c.isAlphanum || c == '_'

/-- One or more characters of plain words. -/
structure PlainWord (w : List Char) : Prop where
  ne_nil : w ≠ []
  plain : ∀ c ∈ w, isPlain c

instance (w : List Char) : Decidable (PlainWord w) :=
  decidable_of_iff (w ≠ [] ∧ w.all isPlain)
    ⟨fun h => ⟨h.1, List.all_eq_true.1 h.2⟩, fun h => ⟨h.1, List.all_eq_true.2 h.2⟩⟩

variable {c d : Char} {w cs : List Char} {line column indent fuel : Nat}

lemma ne_of_isPlain (hc : isPlain c) (hd : isPlain d = false) : c ≠ d := by
  rintro rfl
  simp [hc] at hd

lemma toNat_lt_of_isPlain (hc : isPlain c) : c.toNat < 128 := by
  delta isPlain Char.isAlphanum Char.isAlpha Char.isUpper Char.isLower Char.isDigit at hc
  simp only [Bool.or_eq_true, Bool.and_eq_true, decide_eq_true_eq, UInt32.le_iff_toNat_le,
    ge_iff_le, beq_iff_eq] at hc
  obtain (((⟨-, h⟩ | ⟨-, h⟩) | ⟨-, h⟩) | rfl) := hc
  · exact Nat.lt_of_le_of_lt h (by decide)
  · exact Nat.lt_of_le_of_lt h (by decide)
  · exact Nat.lt_of_le_of_lt h (by decide)
  · decide

/-- What holds of all plain characters can be tried out. -/
lemma forall_isPlain {P : Char → Bool} (hc : isPlain c)
    (h : ∀ n < 128, isPlain (Char.ofNat n) → P (Char.ofNat n)) : P c := by
  have hc' := h c.toNat (toNat_lt_of_isPlain hc)
  rw [Char.ofNat_toNat] at hc'
  exact hc' hc

lemma isSpace_of_isPlain (hc : isPlain c) : isSpace c = false := by
  simpa using forall_isPlain (P := fun c => !isSpace c) hc (by decide)

lemma isIndicator_of_isPlain (hc : isPlain c) : isIndicator c = false := by
  simpa using forall_isPlain (P := fun c => !isIndicator c) hc (by decide)

lemma isPrintable_of_isPlain (hc : isPlain c) : isPrintable c :=
  forall_isPlain hc (by decide)

/-! ### Places -/

lemma place_cons (hc : isPlain c) : place line column (c :: cs) =
    ⟨c, line, column⟩ :: place line (column + 1) cs := by
  have hr : c ≠ '\r' := ne_of_isPlain hc (by decide)
  have hn : c ≠ '\u0085' := ne_of_isPlain hc (by decide)
  have hbreak : isBreak c = false := by
    have hspace := isSpace_of_isPlain hc
    rw [isSpace, Bool.or_eq_false_iff] at hspace
    exact hspace.2
  rw [place.eq_3 _ _ _ _ fun _ h => absurd h hr]
  simp [hr, hn, hbreak]

lemma place_blank : place line column (' ' :: cs) =
    ⟨' ', line, column⟩ :: place line (column + 1) cs :=
  rfl

lemma place_colon : place line column (':' :: cs) =
    ⟨':', line, column⟩ :: place line (column + 1) cs :=
  rfl

lemma place_newline : place line column ('\n' :: cs) =
    ⟨'\n', line, column⟩ :: place (line + 1) 0 cs :=
  rfl

lemma place_indent (n : Nat) : place line column (List.replicate n ' ' ++ cs) =
    place line column (List.replicate n ' ') ++ place line (column + n) cs := by
  induction n generalizing column with
  | zero => rfl
  | succ n ih =>
    rw [List.replicate_succ, List.cons_append, place_blank, place_blank, ih, List.cons_append,
      Nat.add_assoc, Nat.add_comm 1]

lemma char_of_mem_place {n : Nat} {c : Cell}
    (hc : c ∈ place line column (List.replicate n ' ')) : c.char = ' ' := by
  induction n generalizing column with
  | zero => nomatch hc
  | succ n ih =>
    rw [List.replicate_succ, place_blank] at hc
    rcases List.mem_cons.1 hc with rfl | hc
    · rfl
    · exact ih hc

/-- A carriage return may be half of a line break; any other character has a place of its own. -/
lemma length_place (h : '\r' ∉ cs) : (place line column cs).length = cs.length := by
  induction cs generalizing line column with
  | nil => rfl
  | cons c cs ih =>
    obtain ⟨hc, hcs⟩ := not_or.1 (mt List.mem_cons.2 h)
    rw [place.eq_3 _ _ _ _ fun _ h => absurd h.symm hc]
    simp only [List.length_cons, apply_ite List.length, ih hcs, ite_self]

/-! ### Words -/

lemma prepend_prepend (cs ds : List Char) (r : Option (List Char × Text)) :
    prepend cs (prepend ds r) = prepend (cs ++ ds) r := by
  rcases r with _ | ⟨t, rest⟩ <;> simp [prepend]

lemma word?_append (hw : ∀ c ∈ w, isPlain c) : word? false (place line column (w ++ cs)) =
    prepend w (word? false (place line (column + w.length) cs)) := by
  induction w generalizing column with
  | nil => simp [prepend]
  | cons c w ih =>
    obtain ⟨hc, hw⟩ := List.forall_mem_cons.1 hw
    have hcolon : c ≠ ':' := ne_of_isPlain hc (by decide)
    rw [List.cons_append, place_cons hc, word?, ih hw, prepend_prepend]
    simp [isSpace_of_isPlain hc, hcolon, Nat.add_assoc, Nat.add_comm 1]

/-- A text that is at its end, or goes on with a plain word. -/
def Starts (cs : List Char) : Prop := ∀ c ∈ cs.head?, isPlain c

lemma Starts.place_eq (h : Starts cs) (line column : Nat) : place line column cs = [] ∨
    ∃ c rest, isPlain c ∧ place line column cs = ⟨c, line, column⟩ :: rest := by
  rcases cs with _ | ⟨c, cs⟩
  · exact .inl rfl
  · exact .inr ⟨c, _, h c rfl, place_cons (h c rfl)⟩

/-- The space behind a line reaches up to the next word. -/
lemma span_line (line column n : Nat) (h : Starts cs) :
    let line' := place (line + 1) 0 (List.replicate n ' ')
    let text := place line column ('\n' :: (List.replicate n ' ' ++ cs))
    text.takeWhile (isSpace ·.char) = ⟨'\n', line, column⟩ :: line' ∧
      text.dropWhile (isSpace ·.char) = place (line + 1) n cs := by
  have hspace : ∀ c ∈ place (line + 1) 0 (List.replicate n ' '), isSpace c.char := fun c hc => by
    rw [char_of_mem_place hc]
    rfl
  have hrest : (place (line + 1) n cs).takeWhile (isSpace ·.char) = [] ∧
      (place (line + 1) n cs).dropWhile (isSpace ·.char) = place (line + 1) n cs := by
    obtain hnil | ⟨c, rest, hc, hrest⟩ := h.place_eq (line + 1) n
    · simp [hnil]
    · simp [hrest, isSpace_of_isPlain hc]
  have hnewline : isSpace '\n' = true := rfl
  intro line' text
  simp only [text, place_newline, place_indent, Nat.zero_add, List.takeWhile_cons,
    List.dropWhile_cons, hnewline, if_true, List.takeWhile_append_of_pos hspace,
    List.dropWhile_append_of_pos hspace, hrest, List.append_nil]
  exact ⟨rfl, trivial⟩

lemma gap_line {n : Nat} (h : Starts cs) :
    Gap.ofText (place line column ('\n' :: (List.replicate n ' ' ++ cs))) =
      ⟨[], ['\n'], place (line + 1) n cs⟩ := by
  have hbreak : ∀ c ∈ place (line + 1) 0 (List.replicate n ' '), ¬ isBreak c.char := fun c hc => by
    rw [char_of_mem_place hc]
    decide
  obtain ⟨htake, hdrop⟩ := span_line line column n h
  have hends : isBreak '\n' = true := rfl
  have hfirst : isBlank '\n' = false := rfl
  simp only [Gap.ofText, htake, hdrop, List.filter_cons, hends, if_true,
    List.filter_eq_nil_iff.2 hbreak]
  simp [chars, place_newline, hfirst]

/-- A plain scalar ends with its line where the next word stands left of its column. -/
lemma moreWords?_line {n : Nat} (h : Starts cs) (hn : cs ≠ [] → n < indent) :
    moreWords? false indent (fuel + 1)
      (place line column ('\n' :: (List.replicate n ' ' ++ cs))) =
        some ⟨[], true, place (line + 1) n cs⟩ := by
  have htab : ((⟨'\n', line, column⟩ :: place (line + 1) 0 (List.replicate n ' ')).dropWhile
      (isBlank ·.char)).any (fun c => c.char == '\t' && c.column < indent) = false := by
    refine List.any_eq_false.2 fun c hc => ?_
    rcases List.mem_cons.1 ((List.dropWhile_sublist _).mem hc) with rfl | hc
    · simp
    · simp [char_of_mem_place hc]
  simp only [moreWords?, gap_line h, (span_line line column n h).1, htab]
  cases cs with
  | nil => simp [place, atMarker, isMarker, nextIn, word?]
  | cons c cs =>
    rw [place_cons (h c rfl)]
    simp [hn]

/-- It ends before a colon with space behind it. -/
lemma moreWords?_colon {rest : Text} (h : spaced rest) :
    moreWords? false indent (fuel + 1) (⟨':', line, column⟩ :: rest) =
      some ⟨[], false, ⟨':', line, column⟩ :: rest⟩ := by
  have hgap : Gap.ofText (⟨':', line, column⟩ :: rest) =
      ⟨[], [], ⟨':', line, column⟩ :: rest⟩ := by
    simp [Gap.ofText, isSpace, isBlank, isBreak, chars]
  have hspace : isSpace ':' = false := rfl
  simp only [moreWords?, hgap, List.takeWhile_cons, hspace]
  simp [word?, h]

/-- A plain word before a colon is a scalar. -/
lemma plain?_colon (hw : PlainWord w) (h : spaced (place line (column + w.length + 1) cs)) :
    plain? false indent (place line column (w ++ ':' :: cs)) =
      some ⟨w, false, place line (column + w.length) (':' :: cs)⟩ := by
  have hword : word? false (place line column (w ++ ':' :: cs)) =
      some (w, ⟨':', line, column + w.length⟩ :: place line (column + w.length + 1) cs) := by
    rw [word?_append hw.plain, place_colon, word?]
    simp [h, prepend]
  rw [plain?, hword, place_colon]
  simp [moreWords?_colon h]

/-- A plain word at the end of a line is a scalar. -/
lemma plain?_line (hw : PlainWord w) {n : Nat} (h : Starts cs) (hn : cs ≠ [] → n < indent) :
    plain? false indent (place line column (w ++ '\n' :: (List.replicate n ' ' ++ cs))) =
      some ⟨w, true, place (line + 1) n cs⟩ := by
  have hword (text : List Char) : word? false (place line column (w ++ '\n' :: text)) =
      some (w, place line (column + w.length) ('\n' :: text)) := by
    rw [word?_append hw.plain, place_newline, word?]
    simp [isSpace, isBreak, prepend]
  rw [plain?, hword]
  simp [moreWords?_line h hn]

end Staged.Yaml
