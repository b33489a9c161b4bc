import Staged.Text.Numeral
import Staged.Yaml.Scalar

/-!
Settings documents: named entries, each a scalar or a group of named scalars. What a plain scalar
may stand for follows the core schema of YAML; any other scalar is text, unless it keeps its lines
and is tagged as something else.
-/

namespace Staged

structure Scalar where
  text : String
  style : Yaml.Style := .plain
  tag : Option String := none
  deriving DecidableEq, Repr, Inhabited

namespace Scalar

/-- What stands where nothing is written. -/
def absent : Scalar := { text := "" }

/-- The tag of a kind of value that the core schema knows. -/
def coreTag (kind : String) : String := "tag:yaml.org,2002:" ++ kind

/-- Whether the text of a scalar may stand for a value of a kind. -/
def mayBe (s : Scalar) (kind : String) : Bool :=
  s.style == .plain || (s.style == .literal && s.tag == some (coreTag kind))

/-- Whether a scalar stands for no value. A plain scalar that is tagged as null has to say so, and
one with another tag is no null. -/
def isNull? (s : Scalar) : Option Bool :=
  let named := ["~", "null", "Null", "NULL"].contains s.text
  if s.style ≠ .plain then some false
  else
    match s.tag with
    | none => some (s.text == "" || named)
    | some tag => if tag ≠ coreTag "null" then some false else if named then some true else none

def bool? (s : Scalar) : Option Bool :=
  if !s.mayBe "bool" then none
  else if ["true", "True", "TRUE"].contains s.text then some true
  else if ["false", "False", "FALSE"].contains s.text then some false
  else none

/-- The number that some digits denote. A number has no leading zeros. -/
def digits? : List Char → Option Nat
  | '0' :: 'x' :: cs => Numeral.magnitude? 16 cs
  | '0' :: 'o' :: cs => Numeral.magnitude? 8 cs
  | '0' :: 'b' :: cs => Numeral.magnitude? 2 cs
  | '0' :: _ :: _ => none
  | cs => Numeral.magnitude? 10 cs

/-- The number below `bound` that a scalar denotes. -/
def natBelow? (bound : Nat) (s : Scalar) : Option Nat :=
  if !s.mayBe "int" then none
  else
    let number := match s.text.toList with
      | '+' :: cs => digits? cs
      | cs => digits? cs
    number.filter (· < bound)

end Scalar

inductive Item where
  | scalar (s : Scalar)
  | group (entries : List (String × Scalar))
  deriving Repr, Inhabited

namespace Item

def scalar? : Item → Option Scalar
  | scalar s => some s
  | group _ => none

/-- The entries of a group. A plain scalar without text is an empty group. -/
def group? : Item → Option (List (String × Scalar))
  | scalar s => if s.style == .plain && s.text == "" then some [] else none
  | group entries => some entries

def isNull? : Item → Option Bool
  | scalar s => s.isNull?
  | group _ => some false

end Item

abbrev Document := List (String × Item)

/-- Whether every key is one of `allowed` and none stands twice. -/
def wellKeyed {α : Type} (allowed : List String) : List (String × α) → Bool
  | [] => true
  | (key, _) :: rest => allowed.contains key && wellKeyed (allowed.erase key) rest

end Staged
