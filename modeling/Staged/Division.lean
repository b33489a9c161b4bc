import Staged.Variable

/-!
Divisions: which variables are known. A division stores an answer for some variables, and a
variable without an answer counts as unknown. Divisions are ordered by what they know, and `meet`
takes knowledge away.
-/

namespace Staged

structure Division where
  /-- By variable. -/
  entries : List (Var × Bool) := []
  sorted : entries.Pairwise (·.1 < ·.1) := by simp
  deriving DecidableEq, Repr

namespace Division

instance : Inhabited Division := ⟨{}⟩

def empty : Division := {}

def size (d : Division) : Nat := d.entries.length

def isEmpty (d : Division) : Bool := d.entries.isEmpty

/-- The stored answer. -/
def get? (d : Division) (v : Var) : Option Bool := d.entries.lookup v

def isKnown (d : Division) (v : Var) : Bool := (d.get? v).getD false

/-- Stores the answer for `v` at its place in the list. -/
def insert (v : Var) (known : Bool) : List (Var × Bool) → List (Var × Bool)
  | [] => [(v, known)]
  | (w, b) :: rest =>
    if v < w then (v, known) :: (w, b) :: rest
    else if v = w then (v, known) :: rest
    else (w, b) :: insert v known rest

theorem mem_fst_insert {v : Var} {known : Bool} {e : Var × Bool} {entries : List (Var × Bool)}
    (h : e ∈ insert v known entries) : e.1 = v ∨ e ∈ entries := by
  induction entries with
  | nil => simp_all [insert]
  | cons head rest ih => grind [insert]

theorem sorted_insert {v : Var} {known : Bool} {entries : List (Var × Bool)}
    (h : entries.Pairwise (·.1 < ·.1)) : (insert v known entries).Pairwise (·.1 < ·.1) := by
  induction entries with
  | nil => simp [insert]
  | cons head rest ih =>
    obtain ⟨w, b⟩ := head
    obtain ⟨hw, hs⟩ := List.pairwise_cons.1 h
    unfold insert
    split
    next hlt =>
      refine List.pairwise_cons.2 ⟨fun e he => ?_, h⟩
      rcases List.mem_cons.1 he with rfl | he
      · exact hlt
      · exact Nat.lt_trans hlt (hw e he)
    next hlt =>
      split
      next heq =>
        subst heq
        exact List.pairwise_cons.2 ⟨hw, hs⟩
      next hne =>
        refine List.pairwise_cons.2 ⟨fun e he => ?_, ih hs⟩
        rcases mem_fst_insert he with he | he
        · exact he ▸ Nat.lt_of_le_of_ne (Nat.le_of_not_lt hlt) (Ne.symm hne)
        · exact hw e he

def set (d : Division) (v : Var) (known : Bool) : Division :=
  ⟨insert v known d.entries, sorted_insert d.sorted⟩

/-- The last pair of a variable wins. -/
def ofList (pairs : List (Var × Bool)) : Division :=
  pairs.foldl (fun d (v, known) => d.set v known) empty

/-- Leaves `v` known only if `known` holds too. An answer is stored in any case. -/
def meet (d : Division) (v : Var) (known : Bool) : Division := d.set v (d.isKnown v && known)

/-- Whether `meet` takes the knowledge of `v` away. -/
def meetLowers (d : Division) (v : Var) (known : Bool) : Bool := d.isKnown v && !known

/-- Meets every answer that `other` stores. -/
def meetAll (d other : Division) : Division :=
  other.entries.foldl (fun d (v, known) => d.meet v known) d

/-- Whether `meetAll` takes the knowledge of some variable away. -/
def meetAllLowers (d other : Division) : Bool :=
  other.entries.any fun (v, known) => d.meetLowers v known

/-- Whether `other` knows all that `d` knows. -/
def le (d other : Division) : Bool := d.entries.all fun (v, known) => !known || other.isKnown v

/-- The number of known variables. -/
def knownCount (d : Division) : Nat := d.entries.countP (·.2)

theorem lookup_insert (v w : Var) (known : Bool) {entries : List (Var × Bool)}
    (h : entries.Pairwise (·.1 < ·.1)) :
    (insert v known entries).lookup w = if w = v then some known else entries.lookup w := by
  induction entries with
  | nil => by_cases hw : w = v <;> simp [insert, List.lookup_cons, hw, beq_eq_false_iff_ne.2]
  | cons head rest ih =>
    obtain ⟨x, b⟩ := head
    have ih := ih (List.pairwise_cons.1 h).2
    unfold insert
    by_cases hw : w = v
    · subst hw
      split
      · simp
      · split
        · simp
        · have hx : (w == x) = false := by simp; assumption
          simp [List.lookup_cons, hx, ih]
    · have hv : (w == v) = false := by simpa using hw
      split
      · simp [List.lookup_cons, hv]
      · split
        · subst_vars
          simp [List.lookup_cons, hv]
        · simp [List.lookup_cons, ih, hw]

@[simp] theorem get?_empty (v : Var) : empty.get? v = none := rfl

@[simp] theorem get?_set (d : Division) (v w : Var) (known : Bool) :
    (d.set v known).get? w = if w = v then some known else d.get? w :=
  lookup_insert v w known d.sorted

@[simp] theorem isKnown_empty (v : Var) : empty.isKnown v = false := rfl

@[simp] theorem isKnown_set (d : Division) (v w : Var) (known : Bool) :
    (d.set v known).isKnown w = if w = v then known else d.isKnown w := by
  by_cases h : w = v <;> simp [isKnown, h]

@[simp] theorem isKnown_meet (d : Division) (v w : Var) (known : Bool) :
    (d.meet v known).isKnown w = (d.isKnown w && (decide (w ≠ v) || known)) := by
  by_cases h : w = v <;> simp [meet, h]

end Division

end Staged
