import RegisterColoring.Coloring.Node
import RegisterColoring.Interference.Graph
/-!
# Simplification

Nodes are removed one at a time. A node with fewer neighbours left than it has
registers to choose from can always be colored later, so it goes first, and of
several such nodes the lowest. When there is none, the lowest node with the most
neighbours is put aside.
-/
namespace RegisterColoring

/-- A removed node and how many neighbours it had left. -/
structure Removal where
  node : Node
  degree : Nat
  /-- Whether it was put aside instead of simplified. -/
  aside : Bool

namespace Removal

/-- The first node of maximal degree. -/
def mostConstrained? (g : InterferenceGraph) (nodes : List Node) : Option Node :=
  nodes.foldl (fun best n =>
    match best with
    | some b => if g.degree n.id ≤ g.degree b.id then some b else some n
    | none => some n) none

def next? (pools : Pools) (g : InterferenceGraph) (nodes : List Node) : Option Removal :=
  match nodes.find? fun n => g.degree n.id < (pools.ofClass n.file).length with
  | some n => some ⟨n, g.degree n.id, false⟩
  | none => (mostConstrained? g nodes).map fun n => ⟨n, g.degree n.id, true⟩

def sequence (pools : Pools) : Nat → InterferenceGraph → List Node → List Removal
  | 0, _, _ => []
  | count + 1, g, nodes =>
    match next? pools g nodes with
    | none => []
    | some r => r :: sequence pools count (g.removeNode r.node.id) (nodes.filter (· ≠ r.node))

def all (pools : Pools) (g : InterferenceGraph) (nodes : List Node) : List Removal :=
  sequence pools nodes.length g nodes

end Removal

end RegisterColoring
