import RegisterColoring.Register

namespace RegisterColoring

inductive Location
  | register (r : Register)
  /-- Byte offset in the spill area of the function. -/
  | memory (offset : Nat)
deriving DecidableEq

namespace Location

def text : Location → String
  | .register r => r.text
  | .memory offset => "[spill+" ++ toString offset ++ "]"

def register? : Location → Option Register
  | .register r => some r
  | .memory _ => none

def memory? : Location → Option Nat
  | .register _ => none
  | .memory offset => some offset

end Location

/-- The places of one variable. A value may be in a register and in memory at once. -/
structure VariableDescriptor where
  locations : List Location
deriving DecidableEq

namespace VariableDescriptor

def empty : VariableDescriptor := ⟨[]⟩

def add (d : VariableDescriptor) (l : Location) : VariableDescriptor :=
  if d.locations.contains l then d else ⟨d.locations ++ [l]⟩

def remove (d : VariableDescriptor) (l : Location) : VariableDescriptor :=
  ⟨d.locations.filter (· ≠ l)⟩

def register? (d : VariableDescriptor) : Option Register := d.locations.findSome? Location.register?

def memory? (d : VariableDescriptor) : Option Nat := d.locations.findSome? Location.memory?

end VariableDescriptor

/-- The variables that occupy one register. -/
structure RegisterDescriptor where
  ids : List Nat
deriving DecidableEq

namespace RegisterDescriptor

def empty : RegisterDescriptor := ⟨[]⟩

def add (d : RegisterDescriptor) (id : Nat) : RegisterDescriptor :=
  if d.ids.contains id then d else ⟨d.ids ++ [id]⟩

def isFree (d : RegisterDescriptor) : Bool := d.ids.isEmpty

end RegisterDescriptor

end RegisterColoring
