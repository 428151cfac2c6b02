import RegisterColoring.Flow.Graph
/-!
# Building flow graphs

The definitions and uses of every line are recorded block by block. Variables are
numbered on the way, the definitions of a line before its uses. What was recorded
before an error stays recorded.
-/
namespace RegisterColoring

/-- The accesses of an instruction, definitions first. -/
def Instruction.accesses (i : Instruction) : List (Access × Variable) :=
  i.defs.map (Access.define, ·) ++ i.uses.map (Access.use, ·)

/-- What has been recorded, and the error that ended the recording. -/
structure Recorded (α : Type) where
  vars : Numbering
  value : α
  error : Option AllocError

namespace Recorded

def accesses (t : SymbolTable) (function : String) (line : Nat) :
    List (Access × Variable) → Numbering → Block → Recorded Block
  | [], vars, b => ⟨vars, b, none⟩
  | (access, v) :: rest, vars, b =>
    if t.contains v then
      let (id, vars) := vars.intern v
      accesses t function line rest vars (b.record access line id)
    else ⟨vars, b, some (.unknownVariable function v.handle)⟩

def lines (t : SymbolTable) (f : Function) : List Nat → Numbering → Block → Recorded Block
  | [], vars, b => ⟨vars, b, none⟩
  | line :: rest, vars, b =>
    match f.code[line]? with
    | none => ⟨vars, b, some (.fault .outOfRange)⟩
    | some i =>
      match accesses t f.name line i.accesses vars b with
      | ⟨vars, b, none⟩ => lines t f rest vars b
      | stopped => stopped

def blocks (t : SymbolTable) (f : Function) : List Block → Numbering → Recorded (List Block)
  | [], vars => ⟨vars, [], none⟩
  | b :: rest, vars =>
    match lines t f b.lines vars b with
    | ⟨vars, b, none⟩ =>
      let r := blocks t f rest vars
      { r with value := b :: r.value }
    | ⟨vars, b, some e⟩ => ⟨vars, b :: rest, some e⟩

end Recorded

namespace FlowGraph

/-- Record what the lines of a function define and use, in addition to earlier records. -/
def record (g : FlowGraph) (f : Function) (t : SymbolTable) : FlowGraph × Option AllocError :=
  let r := Recorded.blocks t f g.blocks.toList g.vars
  ({ g with vars := r.vars, blocks := r.value.toArray }, r.error)

/-- The flow graph of a function with given bounds, which must tile its code in order. -/
def ofBounds (f : Function) (t : SymbolTable) (bounds : List Bounds) :
    Except AllocError FlowGraph :=
  match Bounds.check f.name f.code.length 0 bounds with
  | .error e => .error e
  | .ok () =>
    match (linked f bounds).record f t with
    | (g, none) => .ok g
    | (_, some e) => .error e

def build (f : Function) (t : SymbolTable) : Except AllocError FlowGraph :=
  ofBounds f t (Bounds.partition f.code)

end FlowGraph

end RegisterColoring
