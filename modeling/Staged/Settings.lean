import Staged.Settings.Preset
import Staged.Settings.Reader
import Staged.Settings.Record

/-!
Settings of an analysis: a preset, and the bounds of the exploration, which may differ from those of
the preset. Settings are checked before they are used, and are kept in files.
-/

namespace Staged

/-- The bounds with a limited range. -/
inductive Bound where
  | states | pathLength
  deriving DecidableEq, Repr

namespace Bound

def field : Bound → String
  | states => "max_states"
  | pathLength => "max_path_length"

def max : Bound → Nat
  | states => 1000000
  | pathLength => 100000

def hint : Bound → String
  | states => "Explore at least one state"
  | pathLength => "Paths must be allowed at least one step"

end Bound

inductive SettingsError where
  | outOfRange (bound : Bound) (value : Nat)
  | unsupportedVersion (found : Nat)
  | unknownPreset (text : String)
  /-- The text holds no record. -/
  | malformed
  /-- The file has no text that can be read. -/
  | unreadable
  deriving DecidableEq, Repr

namespace SettingsError

def message : SettingsError → String
  | outOfRange bound value =>
    "Invalid range for field '" ++ bound.field ++ "': " ++ Nat.repr value ++ " not in 1..="
      ++ Nat.repr bound.max ++ ". " ++ bound.hint
  | unsupportedVersion found =>
    "Unsupported configuration version " ++ Nat.repr found ++ ". Supported versions: 1"
  | unknownPreset text =>
    "Unknown preset '" ++ text ++ "'. Valid presets: fast, balanced, thorough"
  | malformed => "YAML parsing error"
  | unreadable => "IO error"

end SettingsError

namespace Bound

def check (b : Bound) (value : Nat) : Except SettingsError Unit :=
  if 1 ≤ value ∧ value ≤ b.max then .ok () else .error (.outOfRange b value)

end Bound

namespace Limits

/-- The number of states is checked first. -/
def validate (l : Limits) : Except SettingsError Unit := do
  Bound.states.check l.maxStates
  Bound.pathLength.check l.maxPathLength

/-- Puts the bounds of a patch in the place of others. -/
def patch (l : Limits) (p : Patch) : Limits where
  maxStates := p.maxStates.getD l.maxStates
  maxPathLength := p.maxPathLength.getD l.maxPathLength
  parallel := p.parallel.getD l.parallel

end Limits

def Preset.ofText (text : String) : Except SettingsError Preset :=
  match ofName? text with
  | some preset => .ok preset
  | none => .error (.unknownPreset text)

structure Settings where
  preset : Preset
  explorer : Limits
  deriving DecidableEq, Repr

namespace Settings

/-- The version of the records written and read. -/
def version : Nat := 1

def ofPreset (p : Preset) : Settings := ⟨p, p.limits⟩

instance : Inhabited Settings := ⟨ofPreset default⟩

def patch (s : Settings) (p : Patch) : Settings := { s with explorer := s.explorer.patch p }

/-- Returns settings whose bounds are in range. -/
def build (s : Settings) : Except SettingsError Settings := do
  s.explorer.validate
  return s

def toRecord (s : Settings) : Record where
  version := version
  preset := s.preset.name
  explorer := some
    { maxStates := some s.explorer.maxStates
      maxPathLength := some s.explorer.maxPathLength
      parallel := some s.explorer.parallel }

/-- The version is checked before the preset, and the preset before the bounds. -/
def ofRecord (r : Record) : Except SettingsError Settings := do
  if r.version ≠ version then throw (.unsupportedVersion r.version)
  let preset ← Preset.ofText r.preset
  build ⟨preset, preset.limits.patch (r.explorer.getD {})⟩

/-- The text of a settings file. -/
def render (s : Settings) : String :=
  "version: " ++ Nat.repr version ++ "\n"
    ++ "preset: " ++ s.preset.name ++ "\n"
    ++ "explorer:\n"
    ++ "  max_states: " ++ Nat.repr s.explorer.maxStates ++ "\n"
    ++ "  max_path_length: " ++ Nat.repr s.explorer.maxPathLength ++ "\n"
    ++ "  parallel: " ++ (if s.explorer.parallel then "true" else "false") ++ "\n"

def ofText (text : String) : Except SettingsError Settings :=
  match (Reader.document? text).bind Record.ofDocument? with
  | some record => ofRecord record
  | none => .error .malformed

/-- Reads the contents of a settings file, if it has any. -/
def ofFile (contents : Option String) : Except SettingsError Settings :=
  match contents with
  | some text => ofText text
  | none => .error .unreadable

end Settings

end Staged
