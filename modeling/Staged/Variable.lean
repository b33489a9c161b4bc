import Staged.Expr

/-!
Variables, told apart by number and not by name, and the two ways to find the variable that an
identifier denotes: by the place where it stands, or by its name where all names share one scope.
-/

namespace Staged

abbrev Var := Nat

def Var.label (v : Var) : String := "v" ++ Nat.repr v

/-- The variable of an identifier, if it denotes one. -/
abbrev Resolver := Ident → Option Var

/-- Declared variables, and which of them the identifier at each place denotes. -/
structure SymbolTable where
  names : Array String := #[]
  /-- The last binding of a place comes first. -/
  places : List (Nat × Var) := []
  deriving Repr, Inhabited

namespace SymbolTable

def size (t : SymbolTable) : Nat := t.names.size

def isEmpty (t : SymbolTable) : Bool := t.names.isEmpty

/-- Every declaration makes a variable of its own, also when its name was declared before. -/
def declare (t : SymbolTable) (name : String) : Var × SymbolTable :=
  (t.size, { t with names := t.names.push name })

def bind (t : SymbolTable) (node : Nat) (v : Var) : SymbolTable :=
  { t with places := (node, v) :: t.places }

def name? (t : SymbolTable) (v : Var) : Option String := t.names[v]?

def resolve (t : SymbolTable) : Resolver := fun x => t.places.lookup x.node

end SymbolTable

/-- Distinct names; the place of a name is its variable. -/
structure NameTable where
  names : List String := []
  deriving Repr, Inhabited

namespace NameTable

def var? (t : NameTable) (name : String) : Option Var := t.names.idxOf? name

/-- A name that was declared before keeps its variable. -/
def declare (t : NameTable) (name : String) : Var × NameTable :=
  match t.var? name with
  | some v => (v, t)
  | none => (t.names.length, ⟨t.names ++ [name]⟩)

def ofList (names : List String) : NameTable := names.foldl (fun t x => (t.declare x).2) {}

/-- The blank identifier denotes no variable, whatever is declared. -/
def resolve (t : NameTable) : Resolver := fun x => if x.isBlank then none else t.var? x.name

end NameTable

namespace Expr

/-- The variables of the identifiers in some expressions, each once, in reading order. -/
def vars (resolve : Resolver) (es : List Expr) : List Var :=
  ((identsAll es).filterMap resolve).eraseDups

theorem mem_vars {resolve : Resolver} {es : List Expr} {v : Var} :
    v ∈ vars resolve es ↔ ∃ e ∈ es, ∃ x ∈ e.idents, resolve x = some v := by
  simp only [vars, List.mem_eraseDups, List.mem_filterMap, identsAll_eq_flatMap,
    List.mem_flatMap]
  grind

end Expr

end Staged
