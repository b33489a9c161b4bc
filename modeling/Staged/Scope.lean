import Staged.Value
import Std.Data.HashMap

/-!
Where evaluation finds the values of variables. A scope is a chain of bindings that grows at its
inner end and never changes, so two scopes can share what they have in common; a table keeps one
value for each name. Evaluation itself needs no more than an environment.
-/

namespace Staged

/-- The value of each name. -/
abbrev Env := String → Value

/-- An unbound name stands for itself. -/
def Value.free (x : String) : Value := .unknown (.name x)

structure Scope where
  /-- The innermost binding comes first. -/
  bindings : List (String × Value) := []
  deriving Repr, Inhabited

namespace Scope

def empty : Scope := {}

def bind (s : Scope) (x : String) (v : Value) : Scope := ⟨(x, v) :: s.bindings⟩

/-- Binds the pairs in their order, so the last pair becomes the innermost binding. -/
def ofList (pairs : List (String × Value)) : Scope :=
  pairs.foldl (fun s (x, v) => s.bind x v) empty

def isEmpty (s : Scope) : Bool := s.bindings.isEmpty

/-- The innermost binding of `x`. -/
def get? (s : Scope) (x : String) : Option Value := s.bindings.lookup x

def lookup (s : Scope) : Env := fun x => (s.get? x).getD (.free x)

/-- The bindings that no inner one hides, innermost first. -/
def visible (s : Scope) : List (String × Value) :=
  s.bindings.foldr (fun (x, v) outer => (x, v) :: outer.filter (·.1 != x)) []

@[simp] theorem bindings_empty : empty.bindings = [] := rfl

@[simp] theorem bindings_bind (s : Scope) (x : String) (v : Value) :
    (s.bind x v).bindings = (x, v) :: s.bindings := rfl

@[simp] theorem get?_empty (x : String) : empty.get? x = none := rfl

@[simp] theorem get?_bind (s : Scope) (x y : String) (v : Value) :
    (s.bind x v).get? y = if y = x then some v else s.get? y := by
  by_cases h : y = x
  · simp [get?, h]
  · simp [get?, List.lookup_cons, h, beq_eq_false_iff_ne.2 h]

@[simp] theorem lookup_empty (x : String) : empty.lookup x = .free x := rfl

@[simp] theorem lookup_bind (s : Scope) (x y : String) (v : Value) :
    (s.bind x v).lookup y = if y = x then v else s.lookup y := by
  by_cases h : y = x <;> simp [lookup, h]

@[simp] theorem visible_bind (s : Scope) (x : String) (v : Value) :
    (s.bind x v).visible = (x, v) :: s.visible.filter (·.1 != x) := rfl

end Scope

/-- Values by name, without an order. -/
structure Table where
  values : Std.HashMap String Value := ∅

namespace Table

def insert (t : Table) (x : String) (v : Value) : Table := ⟨t.values.insert x v⟩

/-- The last pair of a name wins. -/
def ofList (pairs : List (String × Value)) : Table :=
  pairs.foldl (fun t (x, v) => t.insert x v) {}

def lookup (t : Table) : Env := fun x => t.values[x]?.getD (.free x)

@[simp] theorem lookup_insert (t : Table) (x y : String) (v : Value) :
    (t.insert x v).lookup y = if y = x then v else t.lookup y := by
  by_cases h : y = x
  · simp [lookup, insert, h]
  · simp [lookup, insert, h, Std.HashMap.getElem?_insert, Ne.symm h]

end Table

end Staged
