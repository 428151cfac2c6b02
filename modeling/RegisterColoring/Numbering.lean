import RegisterColoring.SymbolTable
import RegisterColoring.VarSet
/-!
# Numbering of variables

The variables of a function in the order of their first mention. The position of a
variable also decides between variables that are equal otherwise.
-/
namespace RegisterColoring

/-- An identifier that a caller gives as a number takes one 32-bit word: of a larger number
the low 32 bits remain. -/
def wordId (n : Nat) : Nat := n % UInt32.size

/-- Variables by identifier. -/
structure Numbering where
  vars : Array Variable

namespace Numbering

def idText (id : Nat) : String := "v" ++ toString id

def empty : Numbering := ⟨#[]⟩

def size (n : Numbering) : Nat := n.vars.size

def isEmpty (n : Numbering) : Bool := n.vars.isEmpty

def id? (n : Numbering) (v : Variable) : Option Nat := n.vars.idxOf? v

def var? (n : Numbering) (id : Nat) : Option Variable := n.vars[id]?

/-- The identifier of a variable, which is numbered if it is new. -/
def intern (n : Numbering) (v : Variable) : Nat × Numbering :=
  match n.id? v with
  | some id => (id, n)
  | none => (n.size, ⟨n.vars.push v⟩)

def toList (n : Numbering) : List Variable := n.vars.toList

end Numbering

end RegisterColoring
