import Staged.Limits

/-!
Named choices of exploration bounds.
-/

namespace Staged

inductive Preset where
  | fast | balanced | thorough
  deriving DecidableEq, Repr

namespace Preset

/-- A choice between quick answers and complete ones. -/
instance : Inhabited Preset := ⟨balanced⟩

def all : List Preset := [fast, balanced, thorough]

def name : Preset → String
  | fast => "fast"
  | balanced => "balanced"
  | thorough => "thorough"

/-- The preset of a name in any letter case. Its letters have no capitals outside ASCII, so to fold
the case of ASCII letters is enough. -/
def ofName? (text : String) : Option Preset :=
  all.find? (·.name.toList == text.toList.map Char.toLower)

def limits : Preset → Limits
  | fast => { maxStates := 1000, maxPathLength := 256, parallel := false }
  | balanced => { maxStates := 50000, maxPathLength := 4096, parallel := true }
  | thorough => { maxStates := 1000000, maxPathLength := 100000, parallel := true }

end Preset

end Staged
