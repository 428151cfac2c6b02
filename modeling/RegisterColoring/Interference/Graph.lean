namespace RegisterColoring

/-- Rows by node, none for an absent node. -/
structure InterferenceGraph where
  rows : Array (Option (Array Bool))

namespace InterferenceGraph

def empty (size : Nat) : InterferenceGraph := ⟨Array.replicate size none⟩

def row? (g : InterferenceGraph) (v : Nat) : Option (Array Bool) := g.rows[v]?.join

def contains (g : InterferenceGraph) (v : Nat) : Bool := (g.row? v).isSome

def interferes (g : InterferenceGraph) (v w : Nat) : Bool :=
  (g.row? v).any fun row => row[w]?.getD false

def neighbors (g : InterferenceGraph) (v : Nat) : List Nat :=
  match g.row? v with
  | none => []
  | some row => (List.range row.size).filter fun w => row[w]?.getD false

def degree (g : InterferenceGraph) (v : Nat) : Nat := (g.neighbors v).length

def nodes (g : InterferenceGraph) : List Nat := (List.range g.rows.size).filter g.contains

def numNodes (g : InterferenceGraph) : Nat := g.nodes.length

/-- Every edge counts at both of its ends. -/
def numEdges (g : InterferenceGraph) : Nat :=
  g.nodes.foldl (fun ends v => ends + g.degree v) 0 / 2

/-- Make room for a node. -/
def grow (g : InterferenceGraph) (v : Nat) : InterferenceGraph :=
  if v < g.rows.size then g
  else
    let more := v + 1 - g.rows.size
    ⟨(g.rows.map fun row => row.map (· ++ Array.replicate more false)) ++
      Array.replicate more none⟩

def addNode (g : InterferenceGraph) (v : Nat) : InterferenceGraph :=
  let g := g.grow v
  if g.contains v then g
  else ⟨g.rows.setIfInBounds v (some (Array.replicate g.rows.size false))⟩

def setBit (g : InterferenceGraph) (v w : Nat) (bit : Bool) : InterferenceGraph :=
  ⟨g.rows.modify v fun row => row.map fun bits => bits.setIfInBounds w bit⟩

/-- Add an edge and its ends. A node has no edge to itself. -/
def addEdge (g : InterferenceGraph) (v w : Nat) : InterferenceGraph :=
  if v = w then g
  else (((g.addNode v).addNode w).setBit v w true).setBit w v true

def removeNode (g : InterferenceGraph) (v : Nat) : InterferenceGraph :=
  (g.neighbors v).foldl (fun g w => g.setBit w v false) ⟨g.rows.setIfInBounds v none⟩

/-- The lines of a node in a flow chart: its edges to later nodes, or itself if it has none. -/
def mermaidNode (g : InterferenceGraph) (name : Nat → String) (v : Nat) : String :=
  let alone := if g.degree v = 0 then "    " ++ name v ++ ";\n" else ""
  let later := (g.neighbors v).filter fun w => v < w
  alone ++ String.join (later.map fun w => "    " ++ name v ++ " --- " ++ name w ++ ";\n")

/-- The graph as a flow chart, each edge once. -/
def mermaid (g : InterferenceGraph) (name : Nat → String) : String :=
  "graph LR;\n" ++ String.join (g.nodes.map (g.mermaidNode name))

end InterferenceGraph

end RegisterColoring
