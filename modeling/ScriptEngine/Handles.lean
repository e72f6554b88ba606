/-
Numbered handles to objects.

A host keeps its objects under numbers.  Several numbers may share an object,
and a number that was given up is not used again.  Besides its numbers a host
may hold an object for the time of some work, and that counts as a holder too.
-/
import ScriptEngine.Store

namespace ScriptEngine

/-- The handles of a host: the object under each number, the objects held beside, and the store
that they live in. -/
structure Handles where
  slots : Array (Option ObjectRef)
  beside : List ObjectRef
  store : Store

namespace Handles

def empty : Handles := ⟨#[], [], .empty⟩

def ref? (h : Handles) (id : Nat) : Option ObjectRef := (h.slots[id]?).join

def add (h : Handles) (ref : ObjectRef) : Nat × Handles :=
  (h.slots.size, { h with slots := h.slots.push (some ref) })

/-- Puts a new object under the next number. -/
def create {α : Type} [HostClass α] (h : Handles) (a : α) : Nat × Handles :=
  { h with store := h.store.allocate a }.add (h.store.fresh α)

def release (h : Handles) (id : Nat) : Handles :=
  { h with slots := h.slots.setIfInBounds id none }

/-- How many handles an object has. -/
def holders (h : Handles) (ref : ObjectRef) : Nat :=
  h.slots.toList.countP (fun slot => slot.any (·.cell = ref.cell)) +
    h.beside.countP (·.cell = ref.cell)

/-- Holds an object beside its numbers. -/
def hold (h : Handles) (ref : ObjectRef) : Handles := { h with beside := ref :: h.beside }

/-- Ends the latest of these holds. -/
def letGo (h : Handles) : Handles := { h with beside := h.beside.tail }

end Handles
end ScriptEngine
