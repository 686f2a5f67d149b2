import Std.Data.ExtTreeMap
import BeliefRevision.Variable

/-!
# Registries of variable handles

A handle is one copy of a variable's name, told apart from other copies by its cell. A registry
hands out the same handle for the same name as long as some slot holds that handle. It does not keep
handles alive by itself: once no slot holds the handle of a name, asking for the name makes a new
one, and purging forgets the name. Handles can also be made without the registry.

Slots stand for all owners of handles. Storing a handle in a slot drops the one that it held.
-/

namespace BeliefRevision

/-- One copy of the name of a variable. -/
structure Handle where
  /-- The variable. -/
  name : Variable
  /-- What tells this copy from all others. -/
  cell : Nat
deriving DecidableEq, Repr

namespace Handle

/-- Whether two handles are the same copy. -/
def isSame (g h : Handle) : Bool := g.cell == h.cell

/-- Whether two handles are of the same variable. -/
def isEqual (g h : Handle) : Bool := g.name == h.name

/-- The order of two handles. -/
def order (g h : Handle) : Ordering := compare g.name h.name

end Handle

/-- A registry of names together with the slots that hold handles. -/
structure Registry where
  /-- The cell last handed out for each registered name. -/
  entries : Std.ExtTreeMap Variable Nat := ∅
  /-- The handle that each slot holds. -/
  slots : Std.ExtTreeMap String Handle := ∅
  /-- The number of cells made so far. -/
  cells : Nat := 0

namespace Registry

/-- Whether some slot holds a handle of the cell. -/
def isHeld (r : Registry) (cell : Nat) : Bool := r.slots.toList.any fun (_, h) => h.cell == cell

/-- Stores a handle of a cell of its own, which the registry does not know. -/
def makeAside (r : Registry) (slot : String) (name : Variable) : Registry :=
  { r with slots := r.slots.insert slot ⟨name, r.cells⟩, cells := r.cells + 1 }

/-- Stores the handle of a name: the one handed out before if it is still held, else a new one. -/
def request (r : Registry) (slot : String) (name : Variable) : Registry :=
  let made : Registry := { r.makeAside slot name with entries := r.entries.insert name r.cells }
  match r.entries[name]? with
  | some cell =>
    if r.isHeld cell then { r with slots := r.slots.insert slot ⟨name, cell⟩ } else made
  | none => made

/-- Stores in a slot the handle that another slot holds, if it holds one. -/
def copy? (r : Registry) (slot source : String) : Option Registry :=
  r.slots[source]?.map fun h => { r with slots := r.slots.insert slot h }

/-- Empties a slot. -/
def drop (r : Registry) (slot : String) : Registry := { r with slots := r.slots.erase slot }

/-- Forgets the names whose handles are held nowhere. -/
def purge (r : Registry) : Registry :=
  { r with entries := r.entries.filter fun _ cell => r.isHeld cell }

/-- The number of registered names, held or not. -/
def size (r : Registry) : Nat := r.entries.size

end Registry

end BeliefRevision
