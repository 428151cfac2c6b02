/-!
# Faults

A fault is a misuse that no input text can cause: a handle used with a table that
does not hold it, a position outside its list, or a run that forgot a variable.
-/
namespace RegisterColoring

inductive Fault
  | dangling
  | outOfRange
  | unplaced
deriving DecidableEq

def Fault.message : Fault → String
  | .dangling => "the arena pointer is invalid"
  | .outOfRange => "index out of range"
  | .unplaced => "left without a location"

end RegisterColoring
