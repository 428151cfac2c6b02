import RegisterColoring.Opcode
import RegisterColoring.SymbolTable
/-!
# Instructions

Operands, three-address instructions, and the variables an instruction defines and
uses. A variable is defined only when it is stored into as a whole: a store into a
member or an element goes through the base, which is read.
-/
namespace RegisterColoring

inductive Operand
  | label (name : String)
  | literal (text : String)
  | var (v : Variable)
  | member (base : Variable) (field : String)
  | element (base : Variable) (index : Operand)
deriving DecidableEq

structure Instruction where
  label : Option String
  opcode : Opcode
  operands : List Operand
deriving DecidableEq

namespace Operand

/-- Variables read when the operand is evaluated, in order and with repetitions. -/
def reads : Operand → List Variable
  | .label _ => []
  | .literal _ => []
  | .var v => [v]
  | .member base _ => [base]
  | .element base index => base :: index.reads

/-- The variable that a store into the operand defines. -/
def stored : Operand → List Variable
  | .var v => [v]
  | _ => []

/-- Variables read by a store into the operand. -/
def storeReads : Operand → List Variable
  | .var _ => []
  | operand => operand.reads

def text (t : SymbolTable) : Operand → Except Fault String
  | .label name => .ok name
  | .literal text => .ok text
  | .var v => t.name v
  | .member base field => do
    let name ← t.name base
    .ok (name ++ "." ++ field)
  | .element base index => do
    let name ← t.name base
    let inner ← index.text t
    .ok (name ++ "[" ++ inner ++ "]")

end Operand

namespace Instruction

def hasLabel (i : Instruction) : Bool := i.label.any fun l => l != ""

def jumpTarget (i : Instruction) : Option String :=
  if i.opcode.isJump then
    match i.opcode.labelOperand.bind fun k => i.operands[k]? with
    | some (.label name) => some name
    | _ => none
  else none

/-- Variables read when operand `k` is evaluated. -/
def readsAt (i : Instruction) (k : Nat) : List Variable :=
  (i.operands[k]?.map Operand.reads).getD []

def storedAt (i : Instruction) (k : Nat) : List Variable :=
  (i.operands[k]?.map Operand.stored).getD []

def storeReadsAt (i : Instruction) (k : Nat) : List Variable :=
  (i.operands[k]?.map Operand.storeReads).getD []

def defs (i : Instruction) : List Variable :=
  match i.opcode with
  | .assign | .unary _ | .allocArray | .compound _ | .binary _ | .increment | .decrement
  | .alloc => i.storedAt 0
  | _ => []

/-- Variables the instruction uses, in order and with repetitions. A call does not touch
the variables of its caller. -/
def uses (i : Instruction) : List Variable :=
  match i.opcode with
  | .assign | .unary _ | .allocArray => i.storeReadsAt 0 ++ i.readsAt 1
  | .compound _ => i.readsAt 0 ++ i.storeReadsAt 0 ++ i.readsAt 1
  | .binary _ => i.storeReadsAt 0 ++ i.readsAt 1 ++ i.readsAt 2
  | .increment | .decrement => i.readsAt 0 ++ i.storeReadsAt 0
  | .ifFalseJump | .ret | .param | .delete => i.readsAt 0
  | .alloc => i.storeReadsAt 0
  | _ => []

def text (t : SymbolTable) (i : Instruction) : Except Fault String := do
  let operands ← i.operands.mapM (·.text t)
  let label := (i.label.map fun l => l ++ ": ").getD ""
  let args := if operands.isEmpty then "" else " " ++ ", ".intercalate operands
  .ok (label ++ i.opcode.text ++ args)

end Instruction

end RegisterColoring
