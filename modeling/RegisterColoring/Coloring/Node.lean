import RegisterColoring.AllocError
import RegisterColoring.Flow.Graph
import RegisterColoring.Register

namespace RegisterColoring

/-- A variable that needs a place. -/
structure Node where
  id : Nat
  var : Variable
  file : RegisterClass
  /-- Bytes of a spill slot. -/
  size : Nat
deriving DecidableEq

namespace Node

/-- The node of a variable, which must be in the table and have registers to choose from. -/
def ofVariable (pools : Pools) (t : SymbolTable) (function : String) (id : Nat) (v : Variable) :
    Except AllocError Node :=
  match t.declaration? v with
  | none => .error (.unknownVariable function v.handle)
  | some d =>
    let file := RegisterClass.ofType d.type
    if (pools.ofClass file).isEmpty then .error (.emptyPool file)
    else .ok ⟨id, v, file, d.type.size⟩

end Node

end RegisterColoring
