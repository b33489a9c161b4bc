import Staged.Settings.Document

/-!
The record that a settings document holds: a version, the name of a preset, and the bounds that
differ from it.
-/

namespace Staged

/-- Bounds to put in the place of others. -/
structure Patch where
  maxStates : Option Nat := none
  maxPathLength : Option Nat := none
  parallel : Option Bool := none
  deriving DecidableEq, Repr, Inhabited

structure Record where
  version : Nat
  preset : String
  explorer : Option Patch := none
  deriving DecidableEq, Repr, Inhabited

/-- Reads the entry of `key`, which may be missing or null. -/
def optional? {α β : Type} (isNull? : β → Option Bool) (read? : β → Option α) (key : String)
    (entries : List (String × β)) : Option (Option α) :=
  match entries.lookup key with
  | none => some none
  | some value =>
    (isNull? value).bind fun null => if null then some none else (read? value).map some

namespace Patch

def ofGroup? (entries : List (String × Scalar)) : Option Patch := do
  if !wellKeyed ["max_states", "max_path_length", "parallel"] entries then none
  let count := Scalar.natBelow? UInt64.size
  let maxStates ← optional? Scalar.isNull? count "max_states" entries
  let maxPathLength ← optional? Scalar.isNull? count "max_path_length" entries
  let parallel ← optional? Scalar.isNull? Scalar.bool? "parallel" entries
  return { maxStates, maxPathLength, parallel }

end Patch

namespace Record

/-- The name of the preset may be any scalar and is taken as text. -/
def ofDocument? (d : Document) : Option Record := do
  if !wellKeyed ["version", "preset", "explorer"] d then none
  let version ← (← (← d.lookup "version").scalar?).natBelow? UInt32.size
  let preset ← (← d.lookup "preset").scalar?
  let patch? := fun (i : Item) => i.group?.bind Patch.ofGroup?
  let explorer ← optional? Item.isNull? patch? "explorer" d
  return { version, preset := preset.text, explorer }

end Record

end Staged
