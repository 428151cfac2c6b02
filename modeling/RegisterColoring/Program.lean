import RegisterColoring.Instruction

namespace RegisterColoring

structure Function where
  name : String
  /-- The outermost scope of the body. -/
  scope : Scope
  code : List Instruction

/-- The functions of a source text and the table of their variables. -/
structure Program where
  symbols : SymbolTable
  functions : List Function

def Program.function? (p : Program) (name : String) : Option Function :=
  p.functions.find? fun f => f.name = name

/-- The variables of all operands, in order and with repetitions. -/
def Function.mentioned (f : Function) : List Variable :=
  f.code.flatMap fun i => i.operands.flatMap Operand.reads

end RegisterColoring
