import RegisterColoring.Allocator
import RegisterColoring.Log.Entry

namespace RegisterColoring.Log

/-- A jump whose label no block has. -/
def danglingJump (f : Function) (blocks : List Block) (b : Block) : List Entry :=
  match Links.target? f.code b with
  | none => []
  | some label =>
    if (Links.labelled? blocks label).isSome then []
    else [⟨.warn, .flow, "[ cfg ] `" ++ f.name ++ "`: jump to undefined label `" ++ label ++
      "` at line " ++ toString b.last⟩]

def ofLinking (f : Function) (g : FlowGraph) : List Entry :=
  let blocks := g.blocks.toList
  if blocks.isEmpty then []
  else
    blocks.flatMap (danglingJump f blocks) ++
      if g.entry.isNone || g.exit.isNone then
        [⟨.debug, .flow, "[ cfg ] `" ++ f.name ++ "`: no distinguished entry or exit block"⟩]
      else []

def ofBounds (f : Function) (t : SymbolTable) (bounds : List Bounds) : List Entry :=
  match Bounds.check f.name f.code.length 0 bounds with
  | .error _ => []
  | .ok () =>
    ofLinking f (FlowGraph.linked f bounds) ++
      match FlowGraph.ofBounds f t bounds with
      | .error _ => []
      | .ok g =>
        [⟨.debug, .flow, "[ cfg ] `" ++ g.function ++ "`: " ++ toString g.blocks.size ++ " blocks, " ++
          toString g.edges.length ++ " edges, " ++ toString g.vars.size ++ " variables"⟩]

def ofBuild (f : Function) (t : SymbolTable) : List Entry :=
  ofBounds f t (Bounds.partition f.code)

def ofSweeps (g : FlowGraph) (count : Nat) : List Entry :=
  [⟨.debug, .liveness, "[ liveness ] `" ++ g.function ++ "`: fixed point after " ++
    toString count ++ " iterations"⟩]

def ofInterference (g : FlowGraph) (graph : InterferenceGraph) : List Entry :=
  [⟨.debug, .interference, "[ interference ] `" ++ g.function ++ "`: " ++ toString graph.numNodes ++
    " nodes, " ++ toString graph.numEdges ++ " edges"⟩]

def ofRemoval (r : Removal) : Entry :=
  let what := if r.aside then "spill candidate " else "simplify "
  ⟨.trace, .coloring, "[ reg_alloc ] " ++ what ++ Numbering.idText r.node.id ++ " (degree " ++
    toString r.degree ++ ")"⟩

def ofDecision (what : String) (colors : Colors) (n : Node) : List Entry :=
  (colors[n.id]?).toList.map fun c =>
    ⟨.trace, .coloring, "[ reg_alloc ] " ++ what ++ " " ++ Numbering.idText n.id ++ ": " ++ c.describe⟩

def ofColoring (r : ColoringRun) : List Entry :=
  r.removals.map ofRemoval ++
    (Coloring.stack r.removals).flatMap (ofDecision "select" r.colors) ++
    (Coloring.candidates r.removals).flatMap (ofDecision "retry" r.colors)

def ofAllocation (g : FlowGraph) (result : Allocation) : List Entry :=
  [⟨.debug, .coloring, "[ reg_alloc ] `" ++ g.function ++ "`: " ++ toString g.vars.size ++
    " variables, " ++ toString result.registerCount ++ " in registers, " ++
    toString result.spillCount ++ " spilled (" ++ toString result.area ++ " bytes)"⟩]

def ofAllocate (a : Allocator) (g : FlowGraph) (t : SymbolTable) : List Entry :=
  match a.reset g t with
  | (_, some _) => []
  | (ready, none) =>
    let (flow, count) := g.analyze
    ofSweeps g count ++
      match ready.nodes with
      | .error _ => []
      | .ok nodes =>
        let coloring := ColoringRun.ofFlow a.pools flow nodes
        ofInterference flow coloring.graph ++ ofColoring coloring ++
          match (a.allocate g t).result with
          | .error _ => []
          | .ok result => ofAllocation g result

def ofRun (a : Allocator) (f : Function) (t : SymbolTable) : List Entry :=
  ofBuild f t ++
    match FlowGraph.build f t with
    | .error _ => []
    | .ok g => ofAllocate a g t

end RegisterColoring.Log
