import Staged.Proofs.Settings.Record
import Staged.Settings

/-!
Settings files. Whatever settings are written, they read back as themselves if their bounds are in
range, and as the first bound that is not otherwise. A file that names a preset takes from it the
bounds that it does not give.
-/

namespace Staged

/-! ### Ranges -/

lemma Bound.check_eq_ok {b : Bound} {n : Nat} (h : 1 ≤ n ∧ n ≤ b.max) : b.check n = .ok () :=
  if_pos h

lemma Bound.check_eq_error {b : Bound} {n : Nat} (h : ¬ (1 ≤ n ∧ n ≤ b.max)) :
    b.check n = .error (.outOfRange b n) :=
  if_neg h

namespace Settings

/-- The settings, or the first of their bounds that is out of range. -/
def verdict (s : Settings) : Except SettingsError Settings :=
  if 1 ≤ s.explorer.maxStates ∧ s.explorer.maxStates ≤ 1000000 then
    if 1 ≤ s.explorer.maxPathLength ∧ s.explorer.maxPathLength ≤ 100000 then .ok s
    else .error (.outOfRange .pathLength s.explorer.maxPathLength)
  else .error (.outOfRange .states s.explorer.maxStates)

structure InRange (l : Limits) : Prop where
  states : 1 ≤ l.maxStates ∧ l.maxStates ≤ 1000000
  pathLength : 1 ≤ l.maxPathLength ∧ l.maxPathLength ≤ 100000

lemma build_eq_verdict (s : Settings) : s.build = s.verdict := by
  rw [build, Limits.validate, verdict]
  split_ifs with hstates hpath
  · rw [Bound.check_eq_ok hstates, Bound.check_eq_ok hpath]
    rfl
  · rw [Bound.check_eq_ok hstates, Bound.check_eq_error hpath]
    rfl
  · rw [Bound.check_eq_error hstates]
    rfl

end Settings

/-! ### Presets -/

lemma Preset.ofName?_eq_some {text : String} {p : Preset}
    (h : text.toList.map Char.toLower = p.name.toList) : ofName? text = some p := by
  cases p <;> simp [ofName?, all, h, name]

/-! ### Bounds -/

namespace Settings

/-! ### Files -/

/-- Whether a text holds a record. -/
def Holds (text : String) (r : Record) : Prop :=
  (Reader.document? text).bind Record.ofDocument? = some r

lemma ofText_of_holds {text : String} {r : Record} (h : Holds text r) :
    ofText text = ofRecord r := by
  rw [ofText, show (Reader.document? text).bind Record.ofDocument? = some r from h]

lemma ofRecord_eq_verdict {r : Record} (hversion : r.version = 1) {p : Preset}
    (hname : r.preset.toList.map Char.toLower = p.name.toList) :
    ofRecord r = verdict ⟨p, p.limits.patch (r.explorer.getD {})⟩ := by
  simp only [ofRecord, version, hversion, Preset.ofText, Preset.ofName?_eq_some hname]
  exact build_eq_verdict _

/-- What is written is the text of a record that gives all bounds. -/
lemma render_eq (s : Settings) : s.render = s.toRecord.render := by
  apply String.toList_inj.1
  unfold render
  simp [toRecord, Record.render, Document.render, Record.document, Patch.entries, Document.lines,
    Item.lines, Yaml.textOf, Yaml.indentOf, Yaml.Line.text, List.replicate, Scalar.ofBool]

lemma fits_toRecord {s : Settings} (hstates : s.explorer.maxStates < UInt64.size)
    (hpath : s.explorer.maxPathLength < UInt64.size) : s.toRecord.Fits where
  version := (by decide : 1 < UInt32.size)
  preset := by cases hp : s.preset <;> simp only [toRecord, hp] <;> decide
  explorer p hp := by
    obtain rfl := Option.some.inj hp
    exact ⟨⟨fun n hn => Option.some.inj hn ▸ hstates, fun n hn => Option.some.inj hn ▸ hpath⟩,
      by simp⟩

lemma ofText_render {s : Settings} (hstates : s.explorer.maxStates < UInt64.size)
    (hpath : s.explorer.maxPathLength < UInt64.size) : ofText s.render = s.verdict := by
  have hname : s.preset.name.toList.map Char.toLower = s.preset.name.toList := by
    cases s.preset <;> decide
  rw [render_eq, ofText_of_holds (Record.ofDocument?_render (fits_toRecord hstates hpath)),
    ofRecord_eq_verdict rfl hname]
  rfl

/-- The settings of a preset read back as themselves. -/
theorem ofText_render_ofPreset (p : Preset) : ofText (ofPreset p).render = .ok (ofPreset p) := by
  rw [ofText_render (by cases p <;> decide) (by cases p <;> decide)]
  cases p <;> rfl

end Settings

end Staged
