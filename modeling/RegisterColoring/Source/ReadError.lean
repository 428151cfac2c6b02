import RegisterColoring.SymbolTable

namespace RegisterColoring.Source

inductive Refusal
  | unknownOpcode (text : String)
  | undeclared (name : String)
  | malformedOperand (text : String)
  | malformedDirective (line : String)
  | outsideFunction (what : String)
  | functionStillOpen (name : String)
  | unmatchedEndscope
  | symbol (cause : SymbolError)
deriving DecidableEq

/-- A refused line, counted from one. -/
structure ReadError where
  line : Nat
  refusal : Refusal
deriving DecidableEq

def Refusal.message : Refusal → String
  | .unknownOpcode text => "unknown opcode `" ++ text ++ "`"
  | .undeclared name => "`" ++ name ++ "` is not declared"
  | .malformedOperand text => "malformed operand `" ++ text ++ "`"
  | .malformedDirective line => "malformed directive `" ++ line ++ "`"
  | .outsideFunction what => "`" ++ what ++ "` is only allowed inside a function"
  | .functionStillOpen name => "function `" ++ name ++ "` is still open"
  | .unmatchedEndscope => "`.endscope` without a matching `.scope`"
  | .symbol cause => cause.message

def ReadError.message (e : ReadError) : String :=
  "line " ++ toString e.line ++ ": " ++ e.refusal.message

end RegisterColoring.Source
