import RegisterColoring.Location
import RegisterColoring.SymbolTable
/-!
# Allocations

The place of every variable of a function. Spilled variables get slots in the spill
area one after the other, in the order of their identifiers.
-/
namespace RegisterColoring

/-- The outcome of allocating a function. -/
structure Allocation where
  /-- Every variable in the order of first mention. -/
  vars : List Variable
  registers : List (Variable × Register)
  spilled : List Variable
  offsets : List (Variable × Nat)
  /-- Bytes of the spill area. -/
  area : Nat

namespace Allocation

def empty (area : Nat) : Allocation := ⟨[], [], [], [], area⟩

/-- Add a variable with the place that its descriptor names, a register before a slot. -/
def record (a : Allocation) (v : Variable) (d : VariableDescriptor) : Allocation :=
  let a := { a with vars := a.vars ++ [v] }
  match d.register? with
  | some r => { a with registers := a.registers ++ [(v, r)] }
  | none =>
    match d.memory? with
    | some offset =>
      { a with spilled := a.spilled ++ [v], offsets := a.offsets ++ [(v, offset)] }
    | none => a

def register? (a : Allocation) (v : Variable) : Option Register := a.registers.lookup v

def offset? (a : Allocation) (v : Variable) : Option Nat := a.offsets.lookup v

def isSpilled (a : Allocation) (v : Variable) : Bool := a.spilled.contains v

def location? (a : Allocation) (v : Variable) : Option Location :=
  ((a.register? v).map .register).or ((a.offset? v).map .memory)

def registerCount (a : Allocation) : Nat := a.registers.length

def spillCount (a : Allocation) : Nat := a.spilled.length

/-- Whether every variable got a register. -/
def noSpills (a : Allocation) : Bool := a.spilled.isEmpty

def forget (a : Allocation) (v : Variable) : Allocation :=
  { a with
    registers := a.registers.filter fun p => p.1 ≠ v
    spilled := a.spilled.filter (· ≠ v)
    offsets := a.offsets.filter fun p => p.1 ≠ v }

def lineText (a : Allocation) (t : SymbolTable) (v : Variable) : Except Fault String := do
  let d ← t.declaration v
  let place := ((a.location? v).map Location.text).getD "?"
  .ok (d.name ++ ": " ++ d.type.text ++ " -> " ++ place ++ "\n")

def text (a : Allocation) (t : SymbolTable) : Except Fault String := do
  let lines ← a.vars.mapM (a.lineText t)
  .ok (String.join lines ++ toString a.registerCount ++ " in registers, " ++
    toString a.spillCount ++ " spilled, spill area " ++ toString a.area ++ " bytes\n")

end Allocation

end RegisterColoring
