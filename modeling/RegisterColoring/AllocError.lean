import RegisterColoring.Fault
import RegisterColoring.Register

namespace RegisterColoring

/-- Why a function cannot be allocated. -/
inductive AllocError
  | emptyPool (file : RegisterClass)
  | invalidBlock (function : String) (first last : Nat)
  | beyondCode (function : String) (line length : Nat)
  | notATiling (function : String) (line : Nat)
  | unknownVariable (function : String) (handle : Nat)
  | fault (cause : Fault)
deriving DecidableEq

def AllocError.message : AllocError → String
  | .emptyPool file => "no " ++ file.text ++ " registers are available for allocation"
  | .invalidBlock function first last =>
    "in function `" ++ function ++ "`: invalid block [" ++ toString first ++ ", " ++
      toString last ++ "]"
  | .beyondCode function line length =>
    "in function `" ++ function ++ "`: instruction " ++ toString line ++ " is out of range (" ++
      toString length ++ " instructions)"
  | .notATiling function line =>
    "in function `" ++ function ++ "`: instruction " ++ toString line ++
      " is not covered by exactly one block"
  | .unknownVariable function handle =>
    "in function `" ++ function ++ "`: variable #" ++ toString handle ++
      " is not in the symbol table"
  | .fault cause => cause.message

end RegisterColoring
