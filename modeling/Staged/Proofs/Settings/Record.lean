import Staged.Proofs.Settings.Document
import Staged.Proofs.Text.Numeral
import Staged.Settings.Record

/-!
The document of a record, with an entry for each field that is present, and the record that it reads
back as.
-/

namespace Staged

open Yaml

/-! ### Numbers and truth values -/

lemma toList_repr (n : Nat) : n.repr.toList = Nat.toDigits 10 n := String.toList_ofList

lemma isDigit_of_mem_repr {n : Nat} {c : Char} (hc : c ∈ n.repr.toList) : c.isDigit :=
  Nat.isDigit_of_mem_toDigits (by omega) (by omega) (toList_repr n ▸ hc)

lemma plainWord_repr (n : Nat) : PlainWord n.repr.toList where
  ne_nil := by
    rw [toList_repr]
    exact Nat.toDigits_ne_nil
  plain c hc := by simp [isPlain, Char.isAlphanum, isDigit_of_mem_repr hc]

namespace Scalar

/-- Digits without a leading zero are decimal. -/
lemma digits?_toDigits (n : Nat) : digits? (Nat.toDigits 10 n) = some n := by
  rcases Nat.eq_zero_or_pos n with rfl | hn
  · rfl
  · have hzero := Numeral.head?_toDigits_ne_zero hn
    have hnumber := Numeral.magnitude?_toDigits n
    unfold digits?
    split <;> simp_all

lemma natBelow?_repr {n bound : Nat} (h : n < bound) :
    natBelow? bound { text := n.repr } = some n := by
  -- a sign would be passed before the digits
  have hplus (cs : List Char) : n.repr.toList ≠ '+' :: cs := fun hcs =>
    absurd (isDigit_of_mem_repr (hcs ▸ List.mem_cons_self)) (by decide)
  have hnumber : digits? n.repr.toList = some n := by
    rw [toList_repr]
    exact digits?_toDigits n
  have hint : mayBe { text := n.repr } "int" = true := rfl
  simp only [natBelow?, hint, Bool.not_true, Bool.false_eq_true, if_false]
  rw [hnumber, Option.filter_some, if_pos (decide_eq_true h)]

lemma isNull?_repr (n : Nat) : isNull? { text := n.repr } = some false := by
  have hne (t : String) (ht : t.toList.all Char.isDigit = false) : n.repr ≠ t := by
    rintro rfl
    rw [List.all_eq_true.2 fun c hc => isDigit_of_mem_repr hc] at ht
    exact absurd ht (by decide)
  have hempty : n.repr ≠ "" := fun h => (plainWord_repr n).ne_nil (by rw [h]; rfl)
  simp [isNull?, hempty, hne "~" rfl, hne "null" rfl, hne "Null" rfl, hne "NULL" rfl]

lemma isWord_repr (n : Nat) : IsWord { text := n.repr } := ⟨rfl, rfl, plainWord_repr n⟩

/-- The scalar of a truth value. -/
def ofBool (b : Bool) : Scalar := { text := if b then "true" else "false" }

lemma bool?_ofBool (b : Bool) : (ofBool b).bool? = some b := by
  cases b <;> rfl

lemma isWord_ofBool (b : Bool) : (ofBool b).IsWord := by
  cases b <;> exact ⟨rfl, rfl, by decide⟩

lemma isNull?_ofBool (b : Bool) : (ofBool b).isNull? = some false := by
  cases b <;> rfl

end Scalar

/-! ### Fields -/

/-- An optional field is read from its entry, and is none without one. -/
lemma optional?_eq_some {α β : Type} {isNull? : β → Option Bool} {read? : β → Option α}
    {value : α → β} {key : String} {entries : List (String × β)} {field : Option α}
    (hlookup : entries.lookup key = field.map value)
    (hnull : ∀ a ∈ field, isNull? (value a) = some false)
    (hread : ∀ a ∈ field, read? (value a) = some a) :
    optional? isNull? read? key entries = some field := by
  cases field with
  | none => simp [optional?, hlookup]
  | some a => simp [optional?, hlookup, hnull a rfl, hread a rfl]

namespace Patch

/-- An entry for each bound that is present. -/
def entries (p : Patch) : List (String × Scalar) :=
  (p.maxStates.map fun n => ("max_states", { text := n.repr })).toList
    ++ (p.maxPathLength.map fun n => ("max_path_length", { text := n.repr })).toList
    ++ (p.parallel.map fun b => ("parallel", Scalar.ofBool b)).toList

/-- Bounds that a record can hold. -/
structure Fits (p : Patch) : Prop where
  maxStates : ∀ n ∈ p.maxStates, n < UInt64.size
  maxPathLength : ∀ n ∈ p.maxPathLength, n < UInt64.size

lemma wellKeyed_entries (p : Patch) :
    wellKeyed ["max_states", "max_path_length", "parallel"] p.entries := by
  obtain ⟨_ | m, _ | n, _ | b⟩ := p <;> simp [entries, wellKeyed]

lemma lookup_entries (p : Patch) :
    p.entries.lookup "max_states" = p.maxStates.map (fun n => { text := n.repr }) ∧
    p.entries.lookup "max_path_length" = p.maxPathLength.map (fun n => { text := n.repr }) ∧
    p.entries.lookup "parallel" = p.parallel.map Scalar.ofBool := by
  obtain ⟨_ | m, _ | n, _ | b⟩ := p <;> simp [entries, List.lookup_cons]

lemma ofGroup?_entries {p : Patch} (hp : p.Fits) : ofGroup? p.entries = some p := by
  obtain ⟨hstates, hpath, hparallel⟩ := p.lookup_entries
  have hstates := optional?_eq_some hstates (fun n _ => Scalar.isNull?_repr n) fun n hn =>
    Scalar.natBelow?_repr (hp.maxStates n hn)
  have hpath := optional?_eq_some hpath (fun n _ => Scalar.isNull?_repr n) fun n hn =>
    Scalar.natBelow?_repr (hp.maxPathLength n hn)
  have hparallel := optional?_eq_some hparallel (fun b _ => Scalar.isNull?_ofBool b) fun b _ =>
    Scalar.bool?_ofBool b
  simp [ofGroup?, wellKeyed_entries, hstates, hpath, hparallel]

lemma isWord_of_mem_entries (p : Patch) : ∀ e ∈ p.entries, IsKey e.1 ∧ e.2.IsWord := by
  simp only [entries, List.forall_mem_append, Option.mem_toList, Option.map_eq_some_iff]
  refine ⟨⟨?_, ?_⟩, ?_⟩
  · rintro e ⟨n, -, rfl⟩
    exact ⟨(by decide : IsKey "max_states"), Scalar.isWord_repr n⟩
  · rintro e ⟨n, -, rfl⟩
    exact ⟨(by decide : IsKey "max_path_length"), Scalar.isWord_repr n⟩
  · rintro e ⟨b, -, rfl⟩
    exact ⟨(by decide : IsKey "parallel"), Scalar.isWord_ofBool b⟩

lemma entries_ne_nil {p : Patch} (hp : p ≠ {}) : p.entries ≠ [] := by
  obtain ⟨_ | m, _ | n, _ | b⟩ := p <;> simp_all [entries]

end Patch

/-! ### Records -/

namespace Record

/-- Records that can be read. The name of a preset stands for itself in a text if it is a word. -/
structure Fits (r : Record) : Prop where
  version : r.version < UInt32.size
  preset : PlainWord r.preset.toList
  /-- A group without entries would read as no group. -/
  explorer : ∀ p ∈ r.explorer, p.Fits ∧ p ≠ {}

def document (r : Record) : Document :=
  [("version", .scalar { text := r.version.repr }), ("preset", .scalar { text := r.preset })]
    ++ (r.explorer.map fun p => ("explorer", .group p.entries)).toList

/-- The text of a record. -/
def render (r : Record) : String := r.document.render

lemma ofDocument?_document {r : Record} (hr : r.Fits) : ofDocument? r.document = some r := by
  have hkeyed : wellKeyed ["version", "preset", "explorer"] r.document := by
    obtain ⟨version, preset, _ | p⟩ := r <;> simp [document, wellKeyed]
  have hlookup : r.document.lookup "explorer" = r.explorer.map fun p => .group p.entries := by
    obtain ⟨version, preset, _ | p⟩ := r <;> simp [document, List.lookup_cons]
  have hexplorer : optional? Item.isNull? (fun i => i.group?.bind Patch.ofGroup?) "explorer"
      r.document = some r.explorer :=
    optional?_eq_some hlookup (fun _ _ => rfl) fun p hp =>
      Patch.ofGroup?_entries (hr.explorer p hp).1
  have hversion := Scalar.natBelow?_repr hr.version
  simp only [ofDocument?, hkeyed, hexplorer]
  simp [document, List.lookup_cons, Item.scalar?, hversion]

lemma isPlain_document {r : Record} (hr : r.Fits) : r.document.IsPlain := by
  have hpreset : Scalar.IsWord { text := r.preset } := ⟨rfl, rfl, hr.preset⟩
  simp only [document, Document.IsPlain, List.forall_mem_append, List.forall_mem_cons,
    List.not_mem_nil, Option.mem_toList, Option.map_eq_some_iff]
  refine ⟨⟨⟨by decide, .scalar (Scalar.isWord_repr _)⟩, ⟨by decide, .scalar hpreset⟩, ?_⟩, ?_⟩
  · simp
  · rintro e ⟨p, hp, rfl⟩
    exact ⟨(by decide : IsKey "explorer"),
      .group (Patch.entries_ne_nil (hr.explorer p hp).2) p.isWord_of_mem_entries⟩

/-- A record reads back from its text. -/
theorem ofDocument?_render {r : Record} (hr : r.Fits) :
    (Reader.document? r.render).bind ofDocument? = some r := by
  rw [render, Document.document?_render (isPlain_document hr) (by simp [document]),
    Option.bind_some, ofDocument?_document hr]

end Record

end Staged
