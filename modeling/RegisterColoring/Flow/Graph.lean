import RegisterColoring.Flow.Block
import RegisterColoring.Numbering
import RegisterColoring.Program
/-!
# Flow graphs

The blocks of one function and the edges along which control passes between them. A
return leads to the exit block.
-/
namespace RegisterColoring

/-- The flow graph of a function with what the analyses found. -/
structure FlowGraph where
  function : String
  blocks : Array Block
  /-- Edges in the order they were found. -/
  edges : List (Nat × Nat)
  /-- The first block, if nothing leads to it. -/
  entry : Option Nat
  /-- The block that ends the function, if nothing leads away from it. -/
  exit : Option Nat
  /-- The variables in the order of their first mention. -/
  vars : Numbering
  /-- Live ranges by variable, from the last analysis. -/
  infos : List LiveInfo

namespace Links

/-- The last block with a label. -/
def labelled? (blocks : List Block) (label : String) : Option Nat :=
  (blocks.zipIdx.filter fun b => b.1.label = some label).getLast?.map (·.2)

/-- The label that the last instruction of a block names as its jump target. -/
def target? (code : List Instruction) (b : Block) : Option String :=
  code[b.last]?.bind Instruction.jumpTarget

/-- The first block with an end of function, or else the last block. -/
def exitBlock (code : List Instruction) (blocks : List Block) : Nat :=
  let ends := fun (b : Block) => b.lines.any fun l => code[l]?.any fun i => i.opcode = .funcEnd
  (blocks.findIdx? ends).getD (blocks.length - 1)

/-- Where control goes after block `id`. -/
def targets (code : List Instruction) (blocks : List Block) (id : Nat) (b : Block) : List Nat :=
  let jump := ((target? code b).bind (labelled? blocks)).toList
  let next := if id + 1 < blocks.length then [id + 1] else []
  match code[b.last]?.map Instruction.opcode with
  | some .jump => jump
  | some .ifFalseJump => jump ++ next
  | some .ret => if exitBlock code blocks = id then [] else [exitBlock code blocks]
  | some .funcEnd => []
  | _ => next

def add (edges : List (Nat × Nat)) (e : Nat × Nat) : List (Nat × Nat) :=
  if edges.contains e then edges else edges ++ [e]

/-- All edges, by source and then in the order of the targets. -/
def edges (code : List Instruction) (blocks : List Block) : List (Nat × Nat) :=
  (blocks.zipIdx.flatMap fun b => (targets code blocks b.2 b.1).map fun t => (b.2, t)).foldl add []

/-- The first block, if nothing leads to it. -/
def entry (blocks : List Block) (edges : List (Nat × Nat)) : Option Nat :=
  if blocks.isEmpty || edges.any (fun e => e.2 = 0) then none else some 0

/-- The exit block, if nothing leads away from it. -/
def exit (code : List Instruction) (blocks : List Block) (edges : List (Nat × Nat)) : Option Nat :=
  let id := exitBlock code blocks
  if blocks.isEmpty || edges.any (fun e => e.1 = id) then none else some id

end Links

namespace FlowGraph

def succs (g : FlowGraph) (id : Nat) : List Nat :=
  (g.edges.filter fun e => e.1 = id).map (·.2)

def preds (g : FlowGraph) (id : Nat) : List Nat :=
  (g.edges.filter fun e => e.2 = id).map (·.1)

def numberedBlocks (g : FlowGraph) : List (Block × Nat) := g.blocks.toList.zipIdx

/-- The first of the blocks from `lo` up to `hi` that does not end before a line, found by
halving, if the blocks are in order. -/
def firstNotBefore (g : FlowGraph) (line lo hi : Nat) : Nat :=
  if lo < hi then
    let mid := (lo + hi) / 2
    if g.blocks[mid]?.any fun b => b.last < line then g.firstNotBefore line (mid + 1) hi
    else g.firstNotBefore line lo mid
  else lo
termination_by hi - lo

/-- The block that holds a line. -/
def blockOf? (g : FlowGraph) (line : Nat) : Option Nat :=
  let id := g.firstNotBefore line 0 g.blocks.size
  if g.blocks[id]?.any fun b => b.contains line then some id else none

/-- Live information of a variable, from the last analysis. -/
def info? (g : FlowGraph) (id : Nat) : Option LiveInfo := g.infos[id]?

/-- The linked blocks of a function whose bounds have been checked. -/
def linked (f : Function) (bounds : List Bounds) : FlowGraph :=
  let blocks := bounds.map (Block.ofBounds f.code)
  let edges := Links.edges f.code blocks
  { function := f.name
    blocks := blocks.toArray
    edges
    entry := Links.entry blocks edges
    exit := Links.exit f.code blocks edges
    vars := .empty
    infos := [] }

end FlowGraph

end RegisterColoring
