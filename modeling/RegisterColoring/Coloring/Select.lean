import RegisterColoring.Coloring.Simplify
import Std.Data.TreeMap
/-!
# Selection of registers

The simplified nodes are colored from the last removed to the first, then the nodes put
aside are tried in the order they were removed. A node takes the first register of its
pool that no colored neighbour holds.
-/
namespace RegisterColoring

inductive Color
  | register (r : Register)
  | spilled
deriving DecidableEq

def Color.describe : Color → String
  | .register r => "Colored(" ++ r.describe ++ ")"
  | .spilled => "Spilled"

abbrev Colors := Std.TreeMap Nat Color

namespace Coloring

def taken (g : InterferenceGraph) (colors : Colors) (id : Nat) (r : Register) : Bool :=
  (g.neighbors id).any fun w => colors[w]? = some (.register r)

/-- The first register of the node's pool that no neighbour holds. -/
def pick? (pools : Pools) (g : InterferenceGraph) (colors : Colors) (n : Node) : Option Register :=
  (pools.ofClass n.file).find? fun r => !taken g colors n.id r

def assign (pools : Pools) (g : InterferenceGraph) (colors : Colors) (n : Node) : Colors :=
  colors.insert n.id (match pick? pools g colors n with
    | some r => .register r
    | none => .spilled)

/-- The simplified nodes in the order in which they are colored. -/
def stack (removals : List Removal) : List Node :=
  ((removals.filter fun r => !r.aside).map (·.node)).reverse

/-- The nodes put aside in the order in which they are tried. -/
def candidates (removals : List Removal) : List Node :=
  (removals.filter (·.aside)).map (·.node)

def colors (pools : Pools) (g : InterferenceGraph) (removals : List Removal) : Colors :=
  (stack removals ++ candidates removals).foldl (assign pools g) ∅

end Coloring

end RegisterColoring
