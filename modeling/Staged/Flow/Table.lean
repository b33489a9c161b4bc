import Staged.Flow

/-!
Flows given by a table of points.
-/

namespace Staged

structure Row where
  definitions : List Var
  uses : List Var
  next : List Nat
  deriving Repr, Inhabited

/-- The same point, where only its first definition counts. -/
def Row.single (r : Row) : Row := { r with definitions := r.definitions.take 1 }

/-- When the choice at a point can be made. -/
inductive Guard where
  | allUsesKnown | always | never
  deriving DecidableEq, Repr, Inhabited

def Guard.decides (g : Guard) (uses : List Var) (d : Division) : Bool :=
  match g with
  | allUsesKnown => uses.all d.isKnown
  | always => true
  | never => false

namespace Flow

/-- The points are the rows by number. A number outside the table is a point that does nothing. -/
def ofRows (rows : Array Row) (guard : Guard) (entry : Nat) : Flow Nat where
  entry := entry
  region := entry :: rows.toList.flatMap Row.next
  successors p := (rows[p]?.map Row.next).getD []
  definitions p := (rows[p]?.map Row.definitions).getD []
  uses p := (rows[p]?.map Row.uses).getD []
  decides p := guard.decides ((rows[p]?.map Row.uses).getD [])
  entry_mem := List.mem_cons_self
  closed p _ q hq := by
    refine List.mem_cons_of_mem _ (List.mem_flatMap.2 ?_)
    cases h : rows[p]? with
    | none => simp [h] at hq
    | some row =>
      refine ⟨row, ?_, by simpa [h] using hq⟩
      exact Array.mem_toList_iff.2 (Array.mem_of_getElem? h)

end Flow

end Staged
