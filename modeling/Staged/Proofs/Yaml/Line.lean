import Staged.Proofs.Yaml.Word
import Staged.Yaml.Layout
import Mathlib.Data.List.Chain
import Mathlib.Data.List.TakeWhile

/-!
The tokens of a line. A line of a block mapping is a key, a colon, and perhaps a plain word; what is
in the lines before it does not matter but for the columns of the open mappings.
-/

namespace Staged.Yaml

/-- A plain word that is not too long for its colon to make a key of it. -/
structure IsKey (key : String) : Prop where
  word : PlainWord key.toList
  length_le : key.toList.length ≤ 1024

instance (key : String) : Decidable (IsKey key) :=
  decidable_of_iff (PlainWord key.toList ∧ key.toList.length ≤ 1024)
    ⟨fun h => ⟨h.1, h.2⟩, fun h => ⟨h.1, h.2⟩⟩

/-- A line of a block mapping: a key, with a value behind it or without one. -/
structure Line where
  /-- The column of the key. -/
  indent : Nat := 0
  key : String
  value : Option String := none

namespace Line

/-- A line from its key on. -/
def text (l : Line) : List Char := l.key.toList ++ ':' :: l.value.elim [] (' ' :: ·.toList)

structure WellFormed (l : Line) : Prop where
  key : IsKey l.key
  value : ∀ v ∈ l.value, PlainWord v.toList

/-- Whether a line may stand behind another one. Below a key that has a value there is nothing. -/
def Precedes (l next : Line) : Prop := l.value.isSome → next.indent ≤ l.indent

end Line

/-- The column where the next line begins. -/
def indentOf : List Line → Nat
  | [] => 0
  | l :: _ => l.indent

/-- The text of some lines from the first key on. -/
def textOf : List Line → List Char
  | [] => []
  | l :: ls => l.text ++ '\n' :: (List.replicate (indentOf ls) ' ' ++ textOf ls)

/-- The columns of the open mappings when a line begins at a column. -/
def columnsAt (columns : List Nat) (column : Nat) : List Nat :=
  let left := columns.dropWhile (column < ·)
  if left.head? = some column then left else column :: left

/-- The ends and starts of mappings before a line that begins at a column. -/
def changesAt (columns : List Nat) (column : Nat) : List Token :=
  List.replicate (columns.takeWhile (column < ·)).length .mappingEnd ++
    if (columns.dropWhile (column < ·)).head? = some column then [] else [.mappingStart]

/-- The tokens of some lines inside of open mappings. -/
def tokensOf : (columns : List Nat) → List Line → List Token
  | columns, [] => List.replicate columns.length .mappingEnd
  | columns, l :: ls =>
    changesAt columns l.indent ++ [.key, .scalar .plain l.key, .value]
      ++ l.value.toList.map (.scalar .plain) ++ tokensOf (columnsAt columns l.indent) ls

namespace Layout

variable {ts : List Token} {columns : List Nat} {line column fuel n : Nat} {cs : List Char}

/-- Where a line begins. -/
def atLine (ts : List Token) (columns : List Nat) : Layout :=
  { tokens := ts.toArray, columns }

/-- Behind the first word of a line, which may be a key. -/
def atColon (ts : List Token) (columns : List Nat) (line column : Nat) (w : String) : Layout where
  tokens := (ts ++ [Token.scalar .plain w]).toArray
  columns := columns
  key := some ⟨ts.length, line, column, columns.head? == some column⟩
  keyAllowed := false

/-- Behind the colon of an entry. -/
def inEntry (ts : List Token) (columns : List Nat) : Layout :=
  { tokens := ts.toArray, columns, keyAllowed := false }

lemma read?_word {l : Layout} {c : Char} {cs : Text} (hc : isPlain c) :
    l.read? ⟨c, line, column⟩ cs = l.plain? ⟨c, line, column⟩ cs := by
  have hne {d : Char} (hd : isPlain d = false) : c ≠ d := ne_of_isPlain hc hd
  have hmarker {d : Char} (hd : isPlain d = false) :
      isMarker d (⟨c, line, column⟩ :: cs) = false := by
    simp [isMarker, chars, hne hd]
  have hpercent : c ≠ '%' := hne (by decide)
  rw [read?, hmarker (by decide), hmarker (by decide)]
  simp only [hpercent, decide_false, Bool.and_false, Bool.false_eq_true, if_false]
  split
  all_goals first
    | exact absurd hc (by decide)
    | simp [isSpace_of_isPlain hc, isIndicator_of_isPlain hc]

lemma read?_colon {l : Layout} {cs : Text} (h : spaced cs) :
    l.read? ⟨':', line, column⟩ cs = (l.pushValue? ⟨':', line, column⟩).map (·, cs) := by
  simp [read?, isMarker, chars, h]

/-! ### Between the tokens of a line -/

lemma pass_starts {allowed : Bool} (h : Starts cs) :
    pass false allowed false (place line column cs) = (allowed, place line column cs) := by
  rcases cs with _ | ⟨c, cs⟩
  · rfl
  · have hc : isPlain c := h c rfl
    have hne {d : Char} (hd : isPlain d = false) : c ≠ d := ne_of_isPlain hc hd
    have hspace : isBreak c = false ∧ isBlank c = false := by
      have hspace := isSpace_of_isPlain hc
      rw [isSpace, Bool.or_eq_false_iff] at hspace
      exact hspace.symm
    rw [place_cons hc, pass]
    simp [hspace.1, hne (d := ' ') (by decide), hne (d := '\t') (by decide),
      hne (d := '\ufeff') (by decide), hne (d := '#') (by decide)]

lemma pass_blank : pass false false false (place line column (' ' :: cs)) =
    pass false false false (place line (column + 1) cs) := by
  rw [place_blank, pass]
  simp [isBreak]

/-- Behind a line break a key may stand. -/
lemma pass_line (h : Starts cs) :
    pass false false false (place line column ('\n' :: (List.replicate n ' ' ++ cs))) =
      (true, place (line + 1) n cs) := by
  have hindent (k m : Nat) : pass false true false (place (line + 1) k (List.replicate m ' ' ++ cs))
      = (true, place (line + 1) (k + m) cs) := by
    induction m generalizing k with
    | zero => exact pass_starts h
    | succ m ih =>
      rw [List.replicate_succ, List.cons_append, place_blank, pass, ih]
      simp [isBreak, Nat.add_assoc, Nat.add_comm 1]
  rw [place_newline, pass]
  simp [isBreak, hindent]

/-- Where no open mapping begins to the right, none is closed. -/
lemma closeWhile_eq_self {l : Layout} {p : Nat → Bool}
    (h : ∀ col ∈ l.columns.head?, p col = false) : l.closeWhile p = l := by
  obtain ⟨tokens, columns, key, outer, keyAllowed⟩ := l
  rcases columns with _ | ⟨col, columns⟩
  · simp [closeWhile]
  · have hcol : p col = false := h col rfl
    simp [closeWhile, hcol]

/-! ### The steps of a line -/

/-- One round, where the possible key is not too far off and no flow mapping is open. -/
lemma tokensFrom?_read {l l' : Layout} {allowed : Bool} {c : Cell} {text rest rest' : Text}
    (houter : l.outer = []) (hkey : l.key.any (·.isStale c) = false)
    (hpass : pass false l.keyAllowed false text = (allowed, c :: rest))
    (hread : ({ l with keyAllowed := allowed }.closeWhile (c.column < ·)).read? c rest =
      some (l', rest')) :
    tokensFrom? (fuel + 1) l text = tokensFrom? fuel l' rest' := by
  obtain ⟨tokens, columns, key, outer, keyAllowed⟩ := l
  obtain rfl : outer = [] := houter
  have hflow : ({ tokens, columns, key, outer := [], keyAllowed } : Layout).isFlow = false := rfl
  have hstale : forgetStale? { tokens, columns, key, outer := [], keyAllowed := allowed } c =
      some { tokens, columns, key, outer := [], keyAllowed := allowed } := by
    simp only [forgetStale?, hkey]
    rfl
  simp only [tokensFrom?, hflow, hpass, hstale, hread]

lemma insertIdx_append {α : Type} (ts us : List α) (t : α) :
    (ts ++ us).insertIdx ts.length t = ts ++ t :: us := by
  induction ts with
  | nil => rfl
  | cons a ts ih => simpa using ih

lemma starts_append {w : List Char} (hw : PlainWord w) : Starts (w ++ cs) := fun c hc => by
  obtain ⟨d, w', rfl⟩ := List.exists_cons_of_ne_nil hw.ne_nil
  exact Option.some.inj hc ▸ hw.plain d List.mem_cons_self

lemma place_append {w : List Char} (hw : PlainWord w) (line column : Nat) (cs : List Char) :
    ∃ c rest, isPlain c ∧ place line column (w ++ cs) = ⟨c, line, column⟩ :: rest := by
  obtain ⟨c, w', rfl⟩ := List.exists_cons_of_ne_nil hw.ne_nil
  have hc : isPlain c := hw.plain c List.mem_cons_self
  exact ⟨c, _, hc, place_cons hc⟩

variable {w : String}

/-- The first word of a line may be a key. It closes the mappings to its right. -/
lemma tokensFrom?_word (hw : PlainWord w.toList)
    (h : spaced (place line (column + w.toList.length + 1) cs)) :
    tokensFrom? (fuel + 1) (atLine ts columns) (place line column (w.toList ++ ':' :: cs)) =
      tokensFrom? fuel
        (atColon (ts ++ List.replicate (columns.takeWhile (column < ·)).length .mappingEnd)
          (columns.dropWhile (column < ·)) line column w)
        (place line (column + w.toList.length) (':' :: cs)) := by
  obtain ⟨c, rest, hc, hplace⟩ := place_append hw line column (':' :: cs)
  have hplain (indent : Nat) :
      Yaml.plain? false indent (place line column (w.toList ++ ':' :: cs)) = _ := plain?_colon hw h
  have hpass : pass false true false (place line column (w.toList ++ ':' :: cs)) = _ :=
    pass_starts (starts_append hw)
  rw [hplace] at hpass hplain ⊢
  refine tokensFrom?_read rfl rfl hpass ?_
  simp [read?_word hc, Layout.plain?, closeWhile, isFlow, hplain, pushKept?, keepKey?, atLine,
    forgetKey?, atColon, push]

/-- The colon makes a key of the word before it, and opens a mapping at its column unless there is
one. -/
lemma tokensFrom?_colon (hw : w.toList.length ≤ 1024) (hcolumns : ∀ k ∈ columns.head?, k ≤ column)
    (h : spaced (place line (column + w.toList.length + 1) cs)) :
    tokensFrom? (fuel + 1) (atColon ts columns line column w)
        (place line (column + w.toList.length) (':' :: cs)) =
      tokensFrom? fuel
        (if columns.head? = some column then
          inEntry (ts ++ [.key, .scalar .plain w, .value]) columns
        else inEntry (ts ++ [.mappingStart, .key, .scalar .plain w, .value]) (column :: columns))
        (place line (column + w.toList.length + 1) cs) := by
  have hpass : pass false false false (⟨':', line, column + w.toList.length⟩ ::
      place line (column + w.toList.length + 1) cs) =
        (false, ⟨':', line, column + w.toList.length⟩ ::
          place line (column + w.toList.length + 1) cs) := by
    simp [pass, isBreak]
  have hclose : ({ atColon ts columns line column w with keyAllowed := false }).closeWhile
      (column + w.toList.length < ·) = atColon ts columns line column w :=
    closeWhile_eq_self fun k hk => by
      have hle := hcolumns k hk
      simp only [decide_eq_false_iff_not]
      omega
  rw [place_colon]
  refine tokensFrom?_read rfl ?_ hpass ?_
  · simp only [atColon, PossibleKey.isStale, Option.any_some, Nat.lt_irrefl, decide_false,
      Bool.false_or, decide_eq_false_iff_not]
    omega
  rw [hclose, read?_colon h]
  simp only [atColon, pushValue?, List.insertIdxIfInBounds_toArray, insertIdx_append, openMapping]
  rcases columns with _ | ⟨k, columns⟩
  · simp [isFlow, inEntry, push]
  · have hle := hcolumns k rfl
    by_cases hk : k = column
    · simp [hk, isFlow, inEntry, push]
    · have hlt : ¬ column ≤ k := by omega
      simp [hk, hlt, isFlow, inEntry, push]

/-- A value on the line of its key. -/
lemma tokensFrom?_value {k : Nat} (hw : PlainWord w.toList) (h : Starts cs) (hk : k ≤ column)
    (hn : cs ≠ [] → n ≤ k) :
    tokensFrom? (fuel + 1) (inEntry ts (k :: columns)) (place line column
        (' ' :: (w.toList ++ '\n' :: (List.replicate n ' ' ++ cs)))) =
      tokensFrom? fuel (atLine (ts ++ [.scalar .plain w]) (k :: columns))
        (place (line + 1) n cs) := by
  obtain ⟨c, rest, hc, hplace⟩ :=
    place_append hw line (column + 1) ('\n' :: (List.replicate n ' ' ++ cs))
  have hplain : Yaml.plain? false (k + 1) (place line (column + 1)
      (w.toList ++ '\n' :: (List.replicate n ' ' ++ cs))) = _ :=
    plain?_line hw h fun hcs => Nat.lt_succ_of_le (hn hcs)
  have hpass : pass false false false (place line column
      (' ' :: (w.toList ++ '\n' :: (List.replicate n ' ' ++ cs)))) = _ :=
    pass_blank.trans (pass_starts (starts_append hw))
  rw [hplace] at hpass hplain
  have hclose : (inEntry ts (k :: columns)).closeWhile (column + 1 < ·) =
      inEntry ts (k :: columns) :=
    closeWhile_eq_self fun k' hk' => by
      have hkk : k = k' := Option.some.inj hk'
      simp only [decide_eq_false_iff_not]
      omega
  refine tokensFrom?_read rfl rfl hpass ?_
  refine (congrArg (read? · _ _) hclose).trans ?_
  simp [read?_word hc, Layout.plain?, inEntry, isFlow, hplain, pushKept?, keepKey?, atLine, push]

/-- A line may end behind the colon. -/
lemma tokensFrom?_newline (h : Starts cs) :
    tokensFrom? fuel (inEntry ts columns)
        (place line column ('\n' :: (List.replicate n ' ' ++ cs))) =
      tokensFrom? fuel (atLine ts columns) (place (line + 1) n cs) := by
  cases fuel with
  | zero => rfl
  | succ fuel =>
    have hline : pass false false false (place line column
        ('\n' :: (List.replicate n ' ' ++ cs))) = _ := pass_line h
    have hstart : pass false true false (place (line + 1) n cs) = _ := pass_starts h
    have hflow {l : Layout} (hl : l.outer = []) : l.isFlow = false := by simp [isFlow, hl]
    rw [tokensFrom?, tokensFrom?, hflow rfl, hflow rfl, atLine, inEntry, hline, hstart]
    cases place (line + 1) n cs <;> rfl

/-- At the end of the text the open mappings are closed. -/
lemma tokensFrom?_end : tokensFrom? (fuel + 1) (atLine ts columns) [] =
    some (ts ++ List.replicate columns.length .mappingEnd) := by
  have hall : columns.takeWhile (fun _ => true) = columns := List.takeWhile_eq_self_iff.2 (by simp)
  simp [tokensFrom?, atLine, isFlow, pass, forgetKey?, closeWhile, hall]

/-! ### Lines -/

lemma columnsAt_eq_cons (columns : List Nat) (column : Nat) :
    ∃ ks, columnsAt columns column = column :: ks := by
  simp only [columnsAt]
  split
  · rename_i h
    exact List.head?_eq_some_iff.1 h
  · exact ⟨_, rfl⟩

/-- The key of a line, its colon, and the mappings that end and begin before it. -/
lemma tokensFrom?_key (hw : IsKey w) (h : spaced (place line (column + w.toList.length + 1) cs)) :
    tokensFrom? (fuel + 2) (atLine ts columns) (place line column (w.toList ++ ':' :: cs)) =
      tokensFrom? fuel
        (inEntry (ts ++ (changesAt columns column ++ [.key, .scalar .plain w, .value]))
          (columnsAt columns column))
        (place line (column + w.toList.length + 1) cs) := by
  have hcolumns : ∀ k ∈ (columns.dropWhile (column < ·)).head?, k ≤ column := fun k hk => by
    have hnot := List.head?_dropWhile_not (column < ·) columns
    rw [hk] at hnot
    simpa using hnot
  rw [tokensFrom?_word hw.word h, tokensFrom?_colon hw.length_le hcolumns h]
  simp only [changesAt, columnsAt]
  split <;> simp

lemma starts_textOf {ls : List Line} (hls : ∀ l ∈ ls, l.WellFormed) : Starts (textOf ls) := by
  cases ls with
  | nil => simp [textOf, Starts]
  | cons l ls =>
    rw [textOf, Line.text, List.append_assoc]
    exact starts_append (hls l List.mem_cons_self).key.word

lemma two_add_le_length_text {l : Line} (hl : l.WellFormed) :
    2 + l.value.toList.length ≤ l.text.length := by
  have hkey := List.length_pos_iff.2 hl.key.word.ne_nil
  cases hvalue : l.value with
  | none =>
    simp only [Line.text, hvalue, Option.elim_none, Option.toList_none, List.length_append,
      List.length_cons, List.length_nil]
    omega
  | some v =>
    simp only [Line.text, hvalue, Option.elim_some, Option.toList_some, List.length_append,
      List.length_cons, List.length_nil]
    omega

/-- A line, up to where the next one begins. -/
lemma tokensFrom?_line {l : Line} (hl : l.WellFormed) (h : Starts cs)
    (hn : cs ≠ [] → l.value.isSome → n ≤ l.indent) :
    tokensFrom? (fuel + (2 + l.value.toList.length)) (atLine ts columns)
        (place line l.indent (l.text ++ '\n' :: (List.replicate n ' ' ++ cs))) =
      tokensFrom? fuel
        (atLine (ts ++ (changesAt columns l.indent ++ [.key, .scalar .plain l.key, .value]
          ++ l.value.toList.map (.scalar .plain))) (columnsAt columns l.indent))
        (place (line + 1) n cs) := by
  obtain ⟨ks, hks⟩ := columnsAt_eq_cons columns l.indent
  obtain ⟨indent, key, value⟩ := l
  cases value with
  | none =>
    have hspaced : spaced (place line (indent + key.toList.length + 1)
        ('\n' :: (List.replicate n ' ' ++ cs))) := by
      simp [place_newline, spaced, isSpace, isBreak]
    simp only [Line.text, Option.elim_none, Option.toList_none, List.length_nil, Nat.add_zero,
      List.append_assoc, List.cons_append, List.nil_append, List.map_nil, List.append_nil]
    rw [tokensFrom?_key hl.key hspaced, tokensFrom?_newline h]
  | some v =>
    have hspaced : spaced (place line (indent + key.toList.length + 1)
        (' ' :: (v.toList ++ '\n' :: (List.replicate n ' ' ++ cs)))) := by
      simp [place_blank, spaced, isSpace, isBlank]
    have hle : indent ≤ indent + key.toList.length + 1 := by omega
    simp only [Line.text, Option.elim_some, Option.toList_some, List.length_singleton,
      List.append_assoc, List.cons_append, List.nil_append, List.map_cons, List.map_nil]
    rw [show fuel + (2 + 1) = fuel + 1 + 2 by omega, tokensFrom?_key hl.key hspaced, hks,
      tokensFrom?_value (hl.value v rfl) h hle fun hcs => hn hcs rfl]
    simp

/-- Lines are read one after another, with the columns of the open mappings. -/
lemma tokensFrom?_lines {ls : List Line} (hls : ∀ l ∈ ls, l.WellFormed)
    (hnext : ls.IsChain Line.Precedes) (hfuel : (textOf ls).length < fuel) :
    tokensFrom? fuel (atLine ts columns) (place line (indentOf ls) (textOf ls)) =
      some (ts ++ tokensOf columns ls) := by
  induction ls generalizing ts columns line fuel with
  | nil =>
    obtain ⟨fuel, rfl⟩ := Nat.exists_eq_add_of_lt hfuel
    exact tokensFrom?_end
  | cons l ls ih =>
    obtain ⟨hl, hls⟩ := List.forall_mem_cons.1 hls
    -- a line has more characters than tokens, so that the fuel outlasts it
    have hsteps := two_add_le_length_text hl
    have hlength : (textOf ls).length + (2 + l.value.toList.length) < fuel := by
      simp only [textOf, List.length_append, List.length_cons, List.length_replicate] at hfuel
      omega
    obtain ⟨fuel, rfl⟩ := Nat.exists_eq_add_of_le' (Nat.le_of_lt (Nat.lt_of_le_of_lt
      (Nat.le_add_left _ _) hlength))
    have hn : textOf ls ≠ [] → l.value.isSome → indentOf ls ≤ l.indent := by
      cases ls with
      | nil => simp [textOf]
      | cons next ls => exact fun _ => (List.isChain_cons_cons.1 hnext).1
    rw [textOf, indentOf, tokensFrom?_line hl (starts_textOf hls) hn, ih hls hnext.tail (by omega)]
    simp [tokensOf]

end Layout

/-- What the lines of a text are made of. -/
lemma mem_textOf {ls : List Line} (hls : ∀ l ∈ ls, l.WellFormed) {c : Char} (hc : c ∈ textOf ls) :
    isPlain c ∨ c ∈ [':', ' ', '\n'] := by
  induction ls with
  | nil => simp [textOf] at hc
  | cons l ls ih =>
    obtain ⟨hl, hls⟩ := List.forall_mem_cons.1 hls
    have hvalue (hc : c ∈ l.value.elim [] (' ' :: ·.toList)) : c = ' ' ∨ isPlain c := by
      cases hv : l.value with
      | none => simp [hv] at hc
      | some v =>
        rw [hv] at hc
        exact (List.mem_cons.1 hc).imp_right ((hl.value v hv).plain c)
    simp only [textOf, Line.text, List.mem_append, List.mem_cons, List.mem_replicate] at hc
    obtain (hc | rfl | hc) | rfl | ⟨-, rfl⟩ | hc := hc
    · exact .inl (hl.key.word.plain c hc)
    · simp
    · exact (hvalue hc).elim (by simp +contextual) .inl
    · simp
    · simp
    · exact ih hls hc

/-- A text of lines has the tokens of the lines. -/
theorem tokens?_textOf {ls : List Line} (hls : ∀ l ∈ ls, l.WellFormed)
    (hnext : ls.IsChain Line.Precedes) (hindent : indentOf ls = 0) :
    tokens? (String.ofList (textOf ls)) = some (tokensOf [] ls) := by
  have hprintable : (textOf ls).all isPrintable := List.all_eq_true.2 fun c hc => by
    obtain hc | hc := mem_textOf hls hc
    · exact isPrintable_of_isPlain hc
    · have hmarks : [':', ' ', '\n'].all isPrintable := by decide
      exact List.all_eq_true.1 hmarks c hc
  have hreturn : '\r' ∉ textOf ls := fun h => by
    simpa [isPlain] using mem_textOf hls h
  have htokens : Layout.tokensFrom? ((textOf ls).length + 1) (Layout.atLine [] [])
      (place 0 (indentOf ls) (textOf ls)) = some _ :=
    Layout.tokensFrom?_lines hls hnext (Nat.lt_succ_self _)
  rw [hindent] at htokens
  simp only [tokens?, String.toList_ofList, hprintable, if_true, Text.ofString,
    length_place hreturn]
  exact htokens

end Staged.Yaml
