/-!
# Arenas

An arena only grows, and a handle is the position at which a value was put. A
handle does not know its arena: in another arena it denotes the value at the same
position, if there is one.
-/
namespace RegisterColoring

/-- A growing store of values. -/
structure Arena (α : Type) where
  items : Array α

namespace Arena
variable {α : Type}

def empty : Arena α := ⟨#[]⟩

def size (a : Arena α) : Nat := a.items.size

def isEmpty (a : Arena α) : Bool := a.items.isEmpty

/-- Put a value, computed from its own handle, into the arena. -/
def allocWith (a : Arena α) (value : Nat → α) : Nat × Arena α :=
  (a.size, ⟨a.items.push (value a.size)⟩)

def alloc (a : Arena α) (value : α) : Nat × Arena α :=
  a.allocWith fun _ => value

def get? (a : Arena α) (handle : Nat) : Option α := a.items[handle]?

/-- Change the value of a handle, if the arena holds it. -/
def modify (a : Arena α) (handle : Nat) (change : α → α) : Arena α :=
  ⟨a.items.modify handle change⟩

def update? (a : Arena α) (handle : Nat) (change : α → α) : Option (Arena α) :=
  if handle < a.size then some (a.modify handle change) else none

def toList (a : Arena α) : List α := a.items.toList

@[simp] theorem get?_empty (handle : Nat) : (empty : Arena α).get? handle = none := by
  simp [empty, get?]

theorem get?_alloc (a : Arena α) (value : α) (handle : Nat) :
    (a.alloc value).2.get? handle =
      if handle = a.size then some value else a.get? handle :=
  Array.getElem?_push

theorem get?_modify (a : Arena α) (handle : Nat) (change : α → α) (other : Nat) :
    (a.modify handle change).get? other =
      if handle = other then (a.get? other).map change else a.get? other :=
  Array.getElem?_modify

end Arena

end RegisterColoring
