import Staged.Proofs.Yaml.Line
import Staged.Settings.Reader

/-!
Documents of plain words, and their texts: a line for each entry, with those of a group indented
below its key. Such a text reads back as its document.
-/

namespace Staged

open Yaml

/-- A scalar that is a plain word. -/
structure Scalar.IsWord (s : Scalar) : Prop where
  plain : s.style = .plain
  untagged : s.tag = none
  word : PlainWord s.text.toList

namespace Item

/-- An item of plain words. A group without entries would have no line. -/
inductive IsPlain : Item → Prop
  | scalar {s : Scalar} (h : s.IsWord) : IsPlain (.scalar s)
  | group {entries : List (String × Scalar)} (hne : entries ≠ [])
      (h : ∀ e ∈ entries, IsKey e.1 ∧ e.2.IsWord) : IsPlain (.group entries)

/-- The lines of an entry. -/
def lines (key : String) : Item → List Line
  | scalar s => [{ key, value := s.text }]
  | group entries =>
    { key } :: entries.map fun e => { indent := 2, key := e.1, value := e.2.text }

end Item

namespace Document

def IsPlain (d : Document) : Prop := ∀ e ∈ d, IsKey e.1 ∧ e.2.IsPlain

def lines (d : Document) : List Line := d.flatMap fun e => e.2.lines e.1

/-- A text of a document. -/
def render (d : Document) : String := String.ofList (textOf d.lines)

end Document

/-! ### Tokens -/

/-- The tokens of entries whose values have some tokens. -/
def entryTokens {α : Type} (value : α → List Token) (entries : List (String × α)) : List Token :=
  entries.flatMap fun e => .key :: .scalar .plain e.1 :: .value :: value e.2

def Scalar.tokens (s : Scalar) : List Token := [.scalar .plain s.text]

def Item.tokens : Item → List Token
  | scalar s => s.tokens
  | group entries => .mappingStart :: entryTokens Scalar.tokens entries ++ [.mappingEnd]

lemma tokensOf_group (entries : List (String × Scalar)) (ls : List Line) :
    tokensOf [2, 0]
        (entries.map (fun e => { indent := 2, key := e.1, value := some e.2.text }) ++ ls) =
      entryTokens Scalar.tokens entries ++ tokensOf [2, 0] ls := by
  induction entries with
  | nil => rfl
  | cons e entries ih => simp [tokensOf, changesAt, columnsAt, entryTokens, Scalar.tokens, ih]

/-- What is not indented stands outside of a group. -/
lemma tokensOf_outside {ls : List Line} (h : ∀ l ∈ ls.head?, l.indent = 0) :
    tokensOf [2, 0] ls = .mappingEnd :: tokensOf [0] ls := by
  cases ls with
  | nil => rfl
  | cons l ls =>
    have hl : l.indent = 0 := h l rfl
    simp [tokensOf, changesAt, columnsAt, hl]

/-- What is indented more than the open mappings begins another one. -/
lemma tokensOf_inside {columns : List Nat} {l : Line} {ls : List Line}
    (h : ∀ k ∈ columns.head?, k < l.indent) :
    tokensOf columns (l :: ls) = .mappingStart :: tokensOf (l.indent :: columns) (l :: ls) := by
  cases columns with
  | nil => simp [tokensOf, changesAt, columnsAt]
  | cons k columns =>
    have hk : k < l.indent := h k rfl
    simp [tokensOf, changesAt, columnsAt, Nat.le_of_lt hk, Nat.ne_of_lt hk]

namespace Document

lemma indent_head?_lines {d : Document} : ∀ l ∈ d.lines.head?, l.indent = 0 := by
  rcases d with _ | ⟨⟨key, item⟩, d⟩
  · simp [lines]
  · cases item <;> simp [lines, Item.lines]

lemma tokensOf_lines {d : Document} (hd : d.IsPlain) :
    tokensOf [0] d.lines = entryTokens Item.tokens d ++ [.mappingEnd] := by
  induction d with
  | nil => rfl
  | cons e d ih =>
    obtain ⟨key, item⟩ := e
    obtain ⟨⟨-, hplain⟩, hd⟩ := List.forall_mem_cons.1 hd
    have hitem : tokensOf [0] (item.lines key ++ lines d) =
        .key :: .scalar .plain key :: .value :: item.tokens ++ tokensOf [0] (lines d) := by
      cases hplain with
      | scalar => simp [Item.lines, tokensOf, changesAt, columnsAt, Item.tokens, Scalar.tokens]
      | @group entries hne =>
        -- the first line of the group opens a mapping, and what follows the group closes it
        have hgroup := tokensOf_group entries (lines d)
        rw [tokensOf_outside indent_head?_lines] at hgroup
        obtain ⟨e, entries, rfl⟩ := List.exists_cons_of_ne_nil hne
        simp only [Item.lines, List.cons_append, List.map_cons] at hgroup ⊢
        rw [tokensOf, tokensOf_inside (by simp [columnsAt])]
        simp [changesAt, columnsAt, hgroup, Item.tokens]
    rw [lines, List.flatMap_cons, ← lines, hitem, ih hd, entryTokens, entryTokens,
      List.flatMap_cons, List.append_assoc]

end Document

/-! ### Reading -/

namespace Reader

variable {α : Type} {node? : Reader → Option (α × Reader)} {absent : α}
  {value : α → List Token} {tokens : List Token} {handles : List (String × String)}
  {anchors : Anchors} {fuel : Nat}

/-- A reader of values that stand behind a mark, against the tokens of each value. -/
structure Reads (node? : Reader → Option (α × Reader)) (a : α) (ts : List Token) : Prop where
  begins : ∀ rest, (ts ++ rest).head?.any endsEntry = false
  reads : ∀ rest handles anchors,
    node? ⟨ts ++ rest, handles, anchors⟩ = some (a, ⟨rest, handles, anchors⟩)

lemma blockEntries?_entryTokens {entries : List (String × α)}
    (h : ∀ e ∈ entries, Reads node? e.2 (value e.2)) (hfuel : entries.length < fuel) :
    blockEntries? absent node? fuel
        ⟨entryTokens value entries ++ .mappingEnd :: tokens, handles, anchors⟩ =
      some (entries, ⟨tokens, handles, anchors⟩) := by
  induction entries generalizing fuel with
  | nil =>
    obtain ⟨fuel, rfl⟩ := Nat.exists_eq_add_of_lt hfuel
    rfl
  | cons e entries ih =>
    obtain ⟨fuel, rfl⟩ := Nat.exists_eq_add_of_le' (Nat.one_le_of_lt hfuel)
    obtain ⟨key, a⟩ := e
    obtain ⟨ha, h⟩ := List.forall_mem_cons.1 h
    have hscalar (rest : List Token) : scalar? ⟨.scalar .plain key :: rest, handles, anchors⟩ =
        some ({ text := key }, ⟨rest, handles, anchors⟩) := rfl
    have hrest := ih h (Nat.lt_of_succ_lt_succ hfuel)
    simp only [entryTokens, List.flatMap_cons, List.cons_append, List.append_assoc] at hrest ⊢
    rw [blockEntries?]
    simp only [hscalar, Option.bind_eq_bind, Option.bind_some, value?, ha.begins,
      Bool.false_eq_true, if_false, ha.reads, hrest]
    rfl

lemma content?_tokens {s : Scalar} (hs : s.IsWord) :
    content? ⟨s.tokens ++ tokens, handles, anchors⟩ {} =
      some (s, ⟨tokens, handles, anchors⟩) := by
  obtain ⟨text, style, tag⟩ := s
  obtain rfl : style = .plain := hs.plain
  obtain rfl : tag = none := hs.untagged
  rfl

lemma reads_scalar {s : Scalar} (hs : s.IsWord) : Reads scalar? s s.tokens where
  begins _ := rfl
  reads _ _ _ := content?_tokens hs

lemma length_le_entryTokens (value : α → List Token) (entries : List (String × α)) :
    entries.length ≤ (entryTokens value entries).length := by
  induction entries with
  | nil => exact Nat.zero_le _
  | cons e entries ih =>
    simp only [entryTokens, List.flatMap_cons, List.length_append, List.length_cons] at ih ⊢
    omega

lemma entries?_entryTokens {entries : List (String × α)}
    (h : ∀ e ∈ entries, Reads node? e.2 (value e.2)) (absent : α) (r : Reader) :
    entries? absent node? { r with
        tokens := .mappingStart :: entryTokens value entries ++ .mappingEnd :: r.tokens } {} =
      some (entries, r) := by
  refine blockEntries?_entryTokens h ?_
  have hlength := length_le_entryTokens value entries
  simp only [List.length_append, List.length_cons]
  omega

lemma reads_item {i : Item} (hi : i.IsPlain) : Reads item? i i.tokens := by
  cases hi with
  | scalar hs =>
    refine ⟨fun _ => rfl, fun rest handles anchors => ?_⟩
    exact congrArg (Option.map fun read => (Item.scalar read.1, read.2)) (content?_tokens hs)
  | group hne h =>
    refine ⟨fun _ => rfl, fun rest handles anchors => ?_⟩
    have hentries := entries?_entryTokens (fun e he => reads_scalar (h e he).2) .absent
      ⟨rest, handles, anchors⟩
    simp only [Item.tokens, List.append_assoc, List.singleton_append]
    exact congrArg (Option.map fun read => (Item.group read.1, read.2)) hentries

end Reader

/-! ### Lines -/

namespace Document

lemma wellFormed_of_mem_lines {d : Document} (hd : d.IsPlain) {l : Line} (hl : l ∈ d.lines) :
    l.WellFormed := by
  obtain ⟨⟨key, item⟩, he, hl⟩ := List.mem_flatMap.1 hl
  obtain ⟨hkey, hitem⟩ := hd _ he
  cases hitem with
  | scalar hs =>
    obtain rfl := List.mem_singleton.1 hl
    exact ⟨hkey, fun v hv => Option.some.inj hv ▸ hs.word⟩
  | group _ hentries =>
    obtain rfl | hl := List.mem_cons.1 hl
    · exact ⟨hkey, by simp⟩
    · obtain ⟨e, he, rfl⟩ := List.mem_map.1 hl
      obtain ⟨hkey, hs⟩ := hentries e he
      exact ⟨hkey, fun v hv => Option.some.inj hv ▸ hs.word⟩

lemma isChain_lines (d : Document) : d.lines.IsChain Line.Precedes := by
  induction d with
  | nil => exact .nil
  | cons e d ih =>
    obtain ⟨key, item⟩ := e
    have hitem : (item.lines key).IsChain Line.Precedes := by
      cases item with
      | scalar s => exact .singleton _
      | group entries =>
        have hflat : (entries.map fun e => ({ indent := 2, key := e.1, value := e.2.text } : Line))
            |>.IsChain Line.Precedes :=
          List.isChain_map_of_isChain _ (fun _ _ _ _ => Nat.le_refl 2)
            (List.Pairwise.isChain (List.pairwise_of_forall fun _ _ => trivial))
        cases entries with
        | nil => exact .singleton _
        | cons e entries => exact List.isChain_cons_cons.2 ⟨fun h => by simp at h, hflat⟩
    refine List.isChain_append.2 ⟨hitem, ih, fun _ _ l hl _ => ?_⟩
    rw [indent_head?_lines l hl]
    exact Nat.zero_le _

open Reader

/-- A document of plain words reads back from its text. -/
theorem document?_render {d : Document} (hd : d.IsPlain) (hne : d ≠ []) :
    document? d.render = some d := by
  obtain ⟨l, ls, hlines⟩ : ∃ l ls, d.lines = l :: ls := by
    obtain ⟨⟨key, item⟩, d, rfl⟩ := List.exists_cons_of_ne_nil hne
    cases item with
    | scalar => exact ⟨_, _, rfl⟩
    | group => exact ⟨_, _, rfl⟩
  have hindent : l.indent = 0 := indent_head?_lines (d := d) l (by simp [hlines])
  have htokens : tokens? d.render =
      some (.mappingStart :: entryTokens Item.tokens d ++ [.mappingEnd]) := by
    rw [render, tokens?_textOf (fun l => wellFormed_of_mem_lines hd) (isChain_lines d)
      (by rw [hlines]; exact hindent), hlines, tokensOf_inside (by simp), hindent, ← hlines,
      tokensOf_lines hd, List.cons_append]
  have hstart : start? (.mappingStart :: entryTokens Item.tokens d ++ [.mappingEnd]) =
      some ⟨.mappingStart :: entryTokens Item.tokens d ++ [.mappingEnd], standardHandles, {}⟩ := by
    simp [start?, directives?]
  have hentries := entries?_entryTokens (fun e he => reads_item (hd e he).2) (.scalar .absent)
    { tokens := [], handles := standardHandles }
  simp only [document?, htokens, hstart, Option.bind_eq_bind, Option.bind_some]
  exact (congrArg (Option.bind · _) hentries).trans rfl

end Document

end Staged
