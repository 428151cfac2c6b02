import RegisterColoring.AllocError
import RegisterColoring.Instruction
/-!
# Bounds of basic blocks

A block ends after a jump and before an instruction with a label. Bounds that come
from elsewhere are accepted when they tile the code in order.
-/
namespace RegisterColoring

structure Bounds where
  first : Nat
  last : Nat
deriving DecidableEq

namespace Bounds

/-- The blocks of the code from line `line` on, of which the first one starts at `first`. -/
def partitionFrom (first line : Nat) : List Instruction → List Bounds
  | [] => []
  | i :: rest =>
    if i.opcode.isJump || rest.isEmpty || rest.head?.any Instruction.hasLabel then
      ⟨first, line⟩ :: partitionFrom (line + 1) (line + 1) rest
    else partitionFrom first (line + 1) rest

def partition (code : List Instruction) : List Bounds := partitionFrom 0 0 code

/-- Check that the bounds tile the lines from `expected` up to `length`. -/
def check (function : String) (length : Nat) (expected : Nat) :
    List Bounds → Except AllocError Unit
  | [] => if expected = length then .ok () else .error (.notATiling function expected)
  | b :: rest =>
    if b.last < b.first then .error (.invalidBlock function b.first b.last)
    else if length ≤ b.last then .error (.beyondCode function b.last length)
    else if b.first = expected then check function length (b.last + 1) rest
    else .error (.notATiling function (min b.first expected))

end Bounds

end RegisterColoring
