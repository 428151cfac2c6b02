import RegisterColoring.Flow.Graph
import RegisterColoring.Interference.Graph
/-!
# Interference of the variables of a function

Each block is swept backwards from what is live on its exit. A definition interferes
with everything live after it. Variables that are live at the same point but never
defined while the other is live do not interfere.
-/
namespace RegisterColoring.InterferenceGraph

/-- The graph so far and what is live at the point the sweep has come to. -/
structure Sweep where
  graph : InterferenceGraph
  live : VarSet

namespace Sweep

def define (s : Sweep) (v : Nat) : Sweep where
  graph := s.live.toList.foldl (fun g w => g.addEdge v w) (s.graph.addNode v)
  live := s.live.erase v

def use (s : Sweep) (v : Nat) : Sweep where
  graph := s.graph.addNode v
  live := s.live.insert v

/-- Pass a line of a block: its definitions, then its uses. -/
def line (b : Block) (s : Sweep) (line : Nat) : Sweep :=
  ((b.usesAt? line).getD []).foldl use (((b.defsAt? line).getD []).foldl define s)

/-- Pass a block from its last line to its first. -/
def block (g : InterferenceGraph) (b : Block) : Sweep :=
  b.lines.reverse.foldl (line b) ⟨g, b.liveOut⟩

end Sweep

/-- The interference graph for the live sets that the blocks hold. -/
def ofFlow (g : FlowGraph) : InterferenceGraph :=
  g.blocks.toList.foldl (fun graph b => (Sweep.block graph b).graph) (empty g.vars.size)

end RegisterColoring.InterferenceGraph
