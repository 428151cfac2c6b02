import RegisterColoring.Live.Intervals
import RegisterColoring.Text.Split

namespace RegisterColoring.FlowGraph

def names (g : FlowGraph) (t : SymbolTable) : Except Fault (List String) :=
  g.vars.toList.mapM t.name

private def blockList (ids : List Nat) : String := ", ".intercalate (ids.map Block.idText)

private def setLine (title : String) (names : List String) (s : VarSet) : String :=
  title ++ " ".intercalate (s.toList.map fun v => names[v]?.getD "") ++ "\n"

def blockText (g : FlowGraph) (names : List String) (id : Nat) (b : Block) : String :=
  let label := (b.label.map fun l => " " ++ l ++ ":").getD ""
  Block.idText id ++ " [" ++ toString b.first ++ ", " ++ toString b.last ++ "]" ++ label ++
    " preds: [" ++ blockList (g.preds id) ++ "] succs: [" ++ blockList (g.succs id) ++ "]\n" ++
    setLine "  use: " names b.uses.ids ++ setLine "  def: " names b.defs.ids ++
    setLine "  in:  " names b.liveIn ++ setLine "  out: " names b.liveOut

def blocksText (g : FlowGraph) (t : SymbolTable) : Except Fault String := do
  let names ← g.names t
  .ok (String.join (g.numberedBlocks.map fun b => g.blockText names b.2 b.1))

/-- The merged ranges of every variable that has been analysed. -/
def intervalsText (g : FlowGraph) (t : SymbolTable) : Except Fault String := do
  let names ← g.names t
  .ok (String.join ((names.zip g.infos).map fun p => p.1 ++ ": " ++ p.2.text ++ "\n"))

private def blanks (n : Nat) : String := String.ofList (List.replicate n ' ')

/-- Under each name a mark if its variable is live on the line. -/
def chartMarks (g : FlowGraph) (names : List String) (line : Nat) : String :=
  String.join (names.zipIdx.map fun p =>
    let live := (g.info? p.2).any fun info => info.isLiveAt line
    (if live then "|" else " ") ++ blanks p.1.length)

def chartLine (g : FlowGraph) (t : SymbolTable) (code : List Instruction) (names : List String)
    (margin line : Nat) : Except Fault String :=
  match code[line]? with
  | none => .error .outOfRange
  | some i => do
    let text ← i.text t
    let number := toString line
    .ok (number ++ blanks (margin - number.length) ++ g.chartMarks names line ++ "  " ++ text ++ "\n")

def chartText (g : FlowGraph) (f : Function) (t : SymbolTable) : Except Fault String := do
  let names ← g.names t
  let margin := (toString (f.code.length - 1)).length + 4
  let header := (String.join (names.map fun n => n ++ " ")).toList
  let blocks ← g.numberedBlocks.mapM fun b => do
    let lines ← b.1.lines.mapM (g.chartLine t f.code names margin)
    .ok (Block.idText b.2 ++ "\n" ++ String.join lines)
  .ok (blanks margin ++ String.ofList (Text.dropEndWhile Text.isBlank header) ++ "\n" ++
    String.join blocks)

end RegisterColoring.FlowGraph
