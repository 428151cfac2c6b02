namespace RegisterColoring

inductive BinaryOp
  | add
  | sub
  | mul
  | div
  | rem
  | lt
  | le
  | gt
  | ge
  | eq
  | ne
deriving DecidableEq

inductive UnaryOp
  | neg
  | not
  | cast
deriving DecidableEq

inductive Opcode
  | nop
  | funcBegin
  | funcEnd
  | jump
  | ifFalseJump
  | ret
  | param
  | call
  | methodCall
  | alloc
  | allocArray
  | delete
  | assign
  | compound (op : BinaryOp)
  | binary (op : BinaryOp)
  | unary (op : UnaryOp)
  | increment
  | decrement
deriving DecidableEq

namespace BinaryOp

def text : BinaryOp → String
  | .add => "+"
  | .sub => "-"
  | .mul => "*"
  | .div => "/"
  | .rem => "%"
  | .lt => "<"
  | .le => "<="
  | .gt => ">"
  | .ge => ">="
  | .eq => "=="
  | .ne => "!="

def arithmetic : List BinaryOp := [.add, .sub, .mul, .div, .rem]

def comparisons : List BinaryOp := [.lt, .le, .gt, .ge, .eq, .ne]

def all : List BinaryOp := arithmetic ++ comparisons

def ofText? (s : String) : Option BinaryOp := all.find? fun op => op.text = s

def describe : BinaryOp → String
  | .add => "Add"
  | .sub => "Sub"
  | .mul => "Mul"
  | .div => "Div"
  | .rem => "Rem"
  | .lt => "Lt"
  | .le => "Le"
  | .gt => "Gt"
  | .ge => "Ge"
  | .eq => "Eq"
  | .ne => "Ne"

end BinaryOp

namespace UnaryOp

def text : UnaryOp → String
  | .neg => "NEG"
  | .not => "!"
  | .cast => "CAST"

def all : List UnaryOp := [.neg, .not, .cast]

def describe : UnaryOp → String
  | .neg => "Neg"
  | .not => "Not"
  | .cast => "Cast"

end UnaryOp

namespace Opcode

/-- Whether the operation transfers control and so ends a block. -/
def isJump : Opcode → Bool
  | .jump => true
  | .ifFalseJump => true
  | _ => false

/-- Position of the operand that names a label or a function. -/
def labelOperand : Opcode → Option Nat
  | .jump => some 0
  | .call => some 0
  | .methodCall => some 0
  | .funcBegin => some 0
  | .ifFalseJump => some 1
  | _ => none

def text : Opcode → String
  | .nop => "NOP"
  | .funcBegin => "FUNC_BEGIN"
  | .funcEnd => "FUNC_END"
  | .jump => "JUMP"
  | .ifFalseJump => "IF_FALSE_JUMP"
  | .ret => "RETURN"
  | .param => "PARAM"
  | .call => "CALL"
  | .methodCall => "MCALL"
  | .alloc => "ALLOC"
  | .allocArray => "ALLOC_ARRAY"
  | .delete => "DEL"
  | .assign => "="
  | .compound op => op.text ++ "="
  | .binary op => op.text
  | .unary op => op.text
  | .increment => "++"
  | .decrement => "--"

/-- The operations that source text can name. Comparisons have no compound form. -/
def readable : List Opcode :=
  [.nop, .funcBegin, .funcEnd, .jump, .ifFalseJump, .ret, .param, .call, .methodCall, .alloc,
    .allocArray, .delete, .assign, .increment, .decrement] ++
    UnaryOp.all.map .unary ++ BinaryOp.all.map .binary ++ BinaryOp.arithmetic.map .compound

/-- Read an operation by its spelling. No spelling at all is a `NOP`. -/
def ofText? (s : String) : Option Opcode :=
  if s = "" then some .nop else readable.find? fun op => op.text = s

/-- The form of an operation, for a diagnostic listing. -/
def describe : Opcode → String
  | .nop => "Nop"
  | .funcBegin => "FuncBegin"
  | .funcEnd => "FuncEnd"
  | .jump => "Jump"
  | .ifFalseJump => "IfFalseJump"
  | .ret => "Return"
  | .param => "Param"
  | .call => "Call"
  | .methodCall => "MCall"
  | .alloc => "Alloc"
  | .allocArray => "AllocArray"
  | .delete => "Del"
  | .assign => "Assign"
  | .compound op => "CompoundAssign(" ++ op.describe ++ ")"
  | .binary op => "Binary(" ++ op.describe ++ ")"
  | .unary op => "Unary(" ++ op.describe ++ ")"
  | .increment => "Inc"
  | .decrement => "Dec"

end Opcode

end RegisterColoring
