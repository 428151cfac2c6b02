import RegisterColoring.Text.Basic

namespace RegisterColoring

inductive ValueType
  | int
  | float
  | double
  | bool
  | char
  | string
  | object (className : String)
deriving DecidableEq

namespace ValueType

/-- Bytes of a value in a stack slot. Strings and objects are references. -/
def size : ValueType → Nat
  | .int => 4
  | .float => 4
  | .double => 8
  | .bool => 1
  | .char => 2
  | .string => 8
  | .object _ => 8

/-- Whether values travel in floating point registers. -/
def isFloating : ValueType → Bool
  | .float => true
  | .double => true
  | _ => false

def text : ValueType → String
  | .int => "int"
  | .float => "float"
  | .double => "double"
  | .bool => "bool"
  | .char => "char"
  | .string => "string"
  | .object className => className

/-- Read a type: a built-in name, or any other identifier as the name of a class. -/
def ofText? (s : String) : Option ValueType :=
  match s with
  | "int" => some .int
  | "float" => some .float
  | "double" => some .double
  | "bool" => some .bool
  | "char" => some .char
  | "string" => some .string
  | _ => if Text.isIdentifier s.toList then some (.object s) else none

/-- The form of a type, for a diagnostic listing. -/
def describe : ValueType → String
  | .int => "Int"
  | .float => "Float"
  | .double => "Double"
  | .bool => "Bool"
  | .char => "Char"
  | .string => "String"
  | .object className => "Class(" ++ Text.quote className ++ ")"

end ValueType

end RegisterColoring
