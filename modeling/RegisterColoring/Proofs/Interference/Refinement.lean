import RegisterColoring.Proofs.Interference.Plain
/-!
# Interference graphs refine plain graphs

Any sequence of changes leaves rows of bits that stand for the plain graph that the same changes
make. No change reads or writes outside of the rows.
-/
namespace RegisterColoring

inductive GraphChange
  | addNode (v : Nat)
  | addEdge (v w : Nat)
  | removeNode (v : Nat)

def PlainGraph.change (p : PlainGraph) : GraphChange → PlainGraph
  | .addNode v => p.addNode v
  | .addEdge v w => p.addEdge v w
  | .removeNode v => p.removeNode v

namespace InterferenceGraph

def change (g : InterferenceGraph) : GraphChange → InterferenceGraph
  | .addNode v => g.addNode v
  | .addEdge v w => g.addEdge v w
  | .removeNode v => g.removeNode v

private theorem Represents.change {g : InterferenceGraph} {p : PlainGraph} (h : g.Represents p)
    (c : GraphChange) : (g.change c).Represents (p.change c) := by
  cases c with
  | addNode v => exact h.addNode v
  | addEdge v w => exact h.addEdge v w
  | removeNode v => exact h.removeNode v

private theorem Represents.changes {g : InterferenceGraph} {p : PlainGraph} (h : g.Represents p)
    (cs : List GraphChange) :
    (cs.foldl InterferenceGraph.change g).Represents (cs.foldl PlainGraph.change p) := by
  induction cs generalizing g p with
  | nil => exact h
  | cons c cs ih => exact ih (h.change c)

/-- Set one bit, unless the row or the bit is out of range. -/
def setBit? (g : InterferenceGraph) (v w : Nat) (bit : Bool) : Option InterferenceGraph :=
  if v < g.rows.size ∧ (g.row? v).all (fun row => w < row.size) = true then
    some (g.setBit v w bit)
  else none

def addNode? (g : InterferenceGraph) (v : Nat) : Option InterferenceGraph :=
  if v < (g.grow v).rows.size then some (g.addNode v) else none

def addEdge? (g : InterferenceGraph) (v w : Nat) : Option InterferenceGraph :=
  if v = w then some g
  else do
    let g ← g.addNode? v
    let g ← g.addNode? w
    let g ← g.setBit? v w true
    g.setBit? w v true

def removeNode? (g : InterferenceGraph) (v : Nat) : Option InterferenceGraph :=
  (g.neighbors v).foldlM (fun g w => g.setBit? w v false) ⟨g.rows.setIfInBounds v none⟩

/-- A change whose accesses are all checked. -/
def change? (g : InterferenceGraph) : GraphChange → Option InterferenceGraph
  | .addNode v => g.addNode? v
  | .addEdge v w => g.addEdge? v w
  | .removeNode v => g.removeNode? v

private theorem addNode?_eq (g : InterferenceGraph) (v : Nat) :
    g.addNode? v = some (g.addNode v) := by
  have hlt : v < (g.grow v).rows.size := by
    rw [size_grow]
    omega
  exact if_pos hlt

namespace Sized
variable {g : InterferenceGraph} {v w : Nat}

private theorem setBit?_eq (h : g.Sized) (hv : v < g.rows.size) (hw : w < g.rows.size)
    (bit : Bool) :
    g.setBit? v w bit = some (g.setBit v w bit) := by
  refine if_pos ⟨hv, ?_⟩
  rw [Option.all_eq_true]
  intro row hrow
  rw [decide_eq_true_eq, h v row hrow]
  exact hw

private theorem addEdge?_eq (h : g.Sized) (v w : Nat) : g.addEdge? v w = some (g.addEdge v w) := by
  unfold addEdge? InterferenceGraph.addEdge
  split
  · rfl
  · have hsized := (h.addNode v).addNode w
    have hsize : ((g.addNode v).addNode w).rows.size = max (max g.rows.size (v + 1)) (w + 1) := by
      rw [size_addNode, size_addNode]
    have hv : v < ((g.addNode v).addNode w).rows.size := by omega
    have hw : w < ((g.addNode v).addNode w).rows.size := by omega
    have hfirst := hsized.setBit?_eq hv hw true
    rw [← size_setBit _ v w true] at hv hw
    have hsecond := (hsized.setBit v w true).setBit?_eq hw hv true
    simp only [addNode?_eq, hfirst, hsecond, bind, Option.bind]

private theorem foldlM_setBit? (ws : List Nat) (h : g.Sized) (hv : v < g.rows.size)
    (hws : ∀ w ∈ ws, w < g.rows.size) :
    ws.foldlM (fun g w => g.setBit? w v false) g =
      some (ws.foldl (fun g w => g.setBit w v false) g) := by
  induction ws generalizing g with
  | nil => rfl
  | cons w ws ih =>
    obtain ⟨hw, hws⟩ := List.forall_mem_cons.mp hws
    rw [List.foldlM_cons, h.setBit?_eq hw hv]
    refine ih (h.setBit w v false) ?_ ?_
    · rw [size_setBit]
      exact hv
    · intro x hx
      rw [size_setBit]
      exact hws x hx

private theorem removeNode?_eq (h : g.Sized) (v : Nat) :
    g.removeNode? v = some (g.removeNode v) := by
  have hsize : (g.rows.setIfInBounds v none).size = g.rows.size := Array.size_setIfInBounds
  unfold removeNode? InterferenceGraph.removeNode
  by_cases hv : v < g.rows.size
  · refine foldlM_setBit? _ (h.dropRow v) (hsize.symm ▸ hv) ?_
    intro w hw
    exact hsize.symm ▸ h.lt_size (mem_neighbors.mp hw)
  · have hnone : g.row? v = none := by rw [row?, Array.getElem?_eq_none (Nat.not_lt.mp hv)]; rfl
    simp only [neighbors, hnone]
    rfl

private theorem change?_eq (h : g.Sized) (c : GraphChange) : g.change? c = some (g.change c) := by
  cases c with
  | addNode v => exact g.addNode?_eq v
  | addEdge v w => exact h.addEdge?_eq v w
  | removeNode v => exact h.removeNode?_eq v

end Sized

private theorem Represents.changes? {g : InterferenceGraph} {p : PlainGraph} (h : g.Represents p)
    (cs : List GraphChange) : cs.foldlM change? g = some (cs.foldl InterferenceGraph.change g) := by
  induction cs generalizing g p with
  | nil => rfl
  | cons c cs ih =>
    rw [List.foldlM_cons, h.sized.change?_eq]
    exact ih (h.change c)

inductive ChartLine
  | alone (v : Nat)
  | edge (v w : Nat)

def ChartLine.text (name : Nat → String) : ChartLine → String
  | .alone v => "    " ++ name v ++ ";\n"
  | .edge v w => "    " ++ name v ++ " --- " ++ name w ++ ";\n"

def chartLinesOf (g : InterferenceGraph) (v : Nat) : List ChartLine :=
  (if g.degree v = 0 then [.alone v] else []) ++
    ((g.neighbors v).filter fun w => v < w).map (ChartLine.edge v)

def chartLines (g : InterferenceGraph) : List ChartLine := g.nodes.flatMap g.chartLinesOf

private theorem mermaidNode_eq (g : InterferenceGraph) (name : Nat → String) (v : Nat) :
    g.mermaidNode name v = String.join ((g.chartLinesOf v).map (ChartLine.text name)) := by
  unfold mermaidNode chartLinesOf
  rw [List.map_append, String.join_append, List.map_map]
  split <;> simp [ChartLine.text, Function.comp_def]

private theorem mermaid_eq (g : InterferenceGraph) (name : Nat → String) :
    g.mermaid name = "graph LR;\n" ++ String.join (g.chartLines.map (ChartLine.text name)) := by
  unfold mermaid chartLines
  congr 1
  induction g.nodes with
  | nil => rfl
  | cons v vs ih =>
    rw [List.map_cons, String.join_cons, ih, mermaidNode_eq, List.flatMap_cons, List.map_append,
      String.join_append]

/-- The lines that draw a plain graph: one for each node without an edge, and one for each edge,
with its lower end first. -/
structure Draws (lines : List ChartLine) (p : PlainGraph) : Prop where
  nodup : lines.Nodup
  alone : ∀ v, ChartLine.alone v ∈ lines ↔ v ∈ p.nodes ∧ p.neighbors v = ∅
  edge : ∀ v w, ChartLine.edge v w ∈ lines ↔ v < w ∧ s(v, w) ∈ p.edges

private theorem alone_mem_chartLinesOf {g : InterferenceGraph} {v x : Nat} :
    ChartLine.alone x ∈ g.chartLinesOf v ↔ x = v ∧ g.degree v = 0 := by
  unfold chartLinesOf
  split <;> simp [*]

private theorem edge_mem_chartLinesOf {g : InterferenceGraph} {v x y : Nat} :
    ChartLine.edge x y ∈ g.chartLinesOf v ↔ x = v ∧ v < y ∧ g.interferes v y = true := by
  have halone : ChartLine.edge x y ∉ if g.degree v = 0 then [ChartLine.alone v] else [] := by
    split <;> simp
  simp only [chartLinesOf, List.mem_append, halone, false_or, List.mem_map, List.mem_filter,
    mem_neighbors, decide_eq_true_eq, ChartLine.edge.injEq]
  constructor
  · rintro ⟨w, ⟨hw, hlt⟩, rfl, rfl⟩
    exact ⟨rfl, hlt, hw⟩
  · rintro ⟨rfl, hlt, hw⟩
    exact ⟨y, ⟨hw, hlt⟩, rfl, rfl⟩

private theorem nodup_chartLinesOf (g : InterferenceGraph) (v : Nat) :
    (g.chartLinesOf v).Nodup := by
  have hedges : (((g.neighbors v).filter fun w => v < w).map (ChartLine.edge v)).Nodup := by
    refine List.Nodup.map ?_ ((g.nodup_neighbors v).filter _)
    intro x y hxy
    exact (ChartLine.edge.inj hxy).2
  unfold chartLinesOf
  split
  · refine List.nodup_cons.mpr ⟨?_, hedges⟩
    simp
  · exact hedges

private theorem nodup_chartLines (g : InterferenceGraph) : g.chartLines.Nodup := by
  refine List.nodup_flatMap.mpr ⟨fun v _ => g.nodup_chartLinesOf v, ?_⟩
  refine g.nodup_nodes.imp fun {v x} hne line hv hx => hne ?_
  -- Every line starts with the node that it is a line of.
  cases line with
  | alone y => exact (alone_mem_chartLinesOf.mp hv).1.symm.trans (alone_mem_chartLinesOf.mp hx).1
  | edge y z => exact (edge_mem_chartLinesOf.mp hv).1.symm.trans (edge_mem_chartLinesOf.mp hx).1

private theorem Represents.draws {g : InterferenceGraph} {p : PlainGraph} (h : g.Represents p) :
    Draws g.chartLines p where
  nodup := g.nodup_chartLines
  alone v := by
    simp only [chartLines, List.mem_flatMap, alone_mem_chartLinesOf, h.mem_nodes, h.degree,
      Finset.card_eq_zero]
    grind
  edge v w := by
    simp only [chartLines, List.mem_flatMap, edge_mem_chartLinesOf, h.mem_nodes, h.interferes]
    constructor
    · rintro ⟨x, _, rfl, hlt, he⟩
      exact ⟨hlt, he⟩
    · rintro ⟨hlt, he⟩
      exact ⟨v, h.simple.ends _ he v (Sym2.mem_mk_left v w), rfl, hlt, he⟩

/-- The questions about a graph that the plain graph answers. -/
structure Answers (g : InterferenceGraph) (p : PlainGraph) : Prop where
  contains : ∀ v, g.contains v = true ↔ v ∈ p.nodes
  interferes : ∀ v w, g.interferes v w = true ↔ s(v, w) ∈ p.edges
  neighbors : ∀ v, (g.neighbors v).Pairwise (· < ·) ∧ (g.neighbors v).toFinset = p.neighbors v
  degree : ∀ v, g.degree v = (p.neighbors v).card
  numNodes : g.numNodes = p.nodes.card
  numEdges : g.numEdges = p.edges.card
  mermaid : ∃ lines, Draws lines p ∧
    ∀ name, g.mermaid name = "graph LR;\n" ++ String.join (lines.map (ChartLine.text name))

private theorem Represents.answers {g : InterferenceGraph} {p : PlainGraph} (h : g.Represents p) :
    g.Answers p where
  contains := h.contains
  interferes := h.interferes
  neighbors v := ⟨g.ascending_neighbors v, h.toFinset_neighbors v⟩
  degree := h.degree
  numNodes := h.numNodes
  numEdges := h.numEdges
  mermaid := ⟨g.chartLines, h.draws, g.mermaid_eq⟩

/-- After any changes, from any initial room, the graph answers every question as the plain graph
of the same changes does, and no access was out of range. -/
theorem changes_refine (size : Nat) (cs : List GraphChange) :
    let g := cs.foldl change (empty size)
    let p := cs.foldl PlainGraph.change .empty
    g.Answers p ∧ p.Simple ∧ (∀ v w, g.interferes v w = g.interferes w v) ∧
      (∀ v, g.interferes v v = false) ∧
      (∀ v w, g.interferes v w = true → g.contains v = true ∧ g.contains w = true) ∧
      g.Sized ∧ cs.foldlM change? (empty size) = some g := by
  intro g p
  have h : g.Represents p := (Represents.empty size).changes cs
  refine ⟨h.answers, h.simple, ?_, ?_, ?_, h.sized, (Represents.empty size).changes? cs⟩
  · intro v w
    exact Bool.eq_iff_iff.mpr ⟨h.symm, h.symm⟩
  · intro v
    by_contra hv
    rw [Bool.not_eq_false, h.interferes] at hv
    exact h.simple.loopless _ hv (Sym2.mk_isDiag_iff.mpr rfl)
  · intro v w hvw
    exact ⟨contains_of_interferes hvw, contains_of_interferes (h.symm hvw)⟩

end InterferenceGraph

end RegisterColoring
