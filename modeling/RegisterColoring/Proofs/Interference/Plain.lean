import RegisterColoring.Proofs.Interference.Graph
import Mathlib.Combinatorics.Enumerative.DoubleCounting
import Mathlib.Data.Finset.Sort
import Mathlib.Data.Sym.Sym2

namespace RegisterColoring

/-- Nodes, and edges as unordered pairs. -/
structure PlainGraph where
  nodes : Finset Nat
  edges : Finset (Sym2 Nat)

namespace PlainGraph

def empty : PlainGraph := ⟨∅, ∅⟩

def addNode (p : PlainGraph) (v : Nat) : PlainGraph := { p with nodes := insert v p.nodes }

def addEdge (p : PlainGraph) (v w : Nat) : PlainGraph :=
  if v = w then p else ⟨insert v (insert w p.nodes), insert s(v, w) p.edges⟩

def removeNode (p : PlainGraph) (v : Nat) : PlainGraph :=
  ⟨p.nodes.erase v, p.edges.filter fun e => v ∉ e⟩

def neighbors (p : PlainGraph) (v : Nat) : Finset Nat := p.nodes.filter fun w => s(v, w) ∈ p.edges

/-- Every edge joins two different nodes that are there. -/
structure Simple (p : PlainGraph) : Prop where
  loopless : ∀ e ∈ p.edges, ¬ e.IsDiag
  ends : ∀ e ∈ p.edges, ∀ v ∈ e, v ∈ p.nodes

namespace Simple
variable {p : PlainGraph}

private theorem empty : PlainGraph.empty.Simple := by
  constructor <;> simp [PlainGraph.empty]

private theorem addNode (h : p.Simple) (v : Nat) : (p.addNode v).Simple where
  loopless := h.loopless
  ends e he w hw := Finset.mem_insert_of_mem (h.ends e he w hw)

private theorem addEdge (h : p.Simple) (v w : Nat) : (p.addEdge v w).Simple := by
  unfold PlainGraph.addEdge
  split
  · exact h
  · next hvw =>
    constructor
    · intro e he
      rcases Finset.mem_insert.mp he with rfl | he
      · simpa using hvw
      · exact h.loopless e he
    · intro e he x hx
      rcases Finset.mem_insert.mp he with rfl | he
      · rcases Sym2.mem_iff.mp hx with rfl | rfl <;> simp
      · simp [h.ends e he x hx]

private theorem removeNode (h : p.Simple) (v : Nat) : (p.removeNode v).Simple where
  loopless e he := h.loopless e (Finset.mem_of_mem_filter e he)
  ends e he w hw := by
    obtain ⟨he, hv⟩ := Finset.mem_filter.mp he
    refine Finset.mem_erase.mpr ⟨?_, h.ends e he w hw⟩
    rintro rfl
    exact hv hw

private theorem mem_neighbors (h : p.Simple) {v w : Nat} :
    w ∈ p.neighbors v ↔ s(v, w) ∈ p.edges := by
  rw [neighbors, Finset.mem_filter, and_iff_right_iff_imp]
  intro he
  exact h.ends _ he w (Sym2.mem_mk_right v w)

private theorem card_neighbors (h : p.Simple) (v : Nat) :
    (p.neighbors v).card = (p.edges.filter fun e => v ∈ e).card := by
  have himage : p.edges.filter (fun e => v ∈ e) = (p.neighbors v).image fun w => s(v, w) := by
    ext e
    rw [Finset.mem_filter, Finset.mem_image]
    constructor
    · intro he
      obtain ⟨he, w, rfl⟩ := he
      exact ⟨w, h.mem_neighbors.mpr he, rfl⟩
    · intro he
      obtain ⟨w, hw, rfl⟩ := he
      exact ⟨h.mem_neighbors.mp hw, Sym2.mem_mk_left v w⟩
  rw [himage, Finset.card_image_of_injective]
  intro a b hab
  exact Sym2.congr_right.mp hab

/-- Every edge counts at both of its ends. -/
theorem sum_card_neighbors (h : p.Simple) :
    ∑ v ∈ p.nodes, (p.neighbors v).card = 2 * p.edges.card := by
  have hends : ∀ e ∈ p.edges, (p.nodes.filter fun v => v ∈ e).card = 2 := by
    intro e
    induction e using Sym2.ind with
    | _ v w =>
      intro he
      have hpair : (p.nodes.filter fun x => x ∈ s(v, w)) = {v, w} := by
        ext x
        simp only [Finset.mem_filter, Sym2.mem_iff, Finset.mem_insert, Finset.mem_singleton,
          and_iff_right_iff_imp]
        intro hx
        exact h.ends _ he x (Sym2.mem_iff.mpr hx)
      rw [hpair]
      exact Finset.card_pair (by simpa using h.loopless _ he)
  calc ∑ v ∈ p.nodes, (p.neighbors v).card
      = ∑ v ∈ p.nodes, (p.edges.filter fun e => v ∈ e).card :=
        Finset.sum_congr rfl fun v _ => h.card_neighbors v
    _ = ∑ e ∈ p.edges, (p.nodes.filter fun v => v ∈ e).card :=
        Finset.sum_card_bipartiteAbove_eq_sum_card_bipartiteBelow fun v e => v ∈ e
    _ = 2 * p.edges.card := by
        rw [Finset.sum_congr rfl hends, Finset.sum_const, smul_eq_mul, Nat.mul_comm]

end Simple

end PlainGraph

namespace InterferenceGraph

theorem nodup_nodes (g : InterferenceGraph) : g.nodes.Nodup :=
  List.nodup_range.filter _

/-- The rows of bits stand for the plain graph. -/
structure Represents (g : InterferenceGraph) (p : PlainGraph) : Prop where
  sized : g.Sized
  simple : p.Simple
  contains : ∀ v, g.contains v = true ↔ v ∈ p.nodes
  interferes : ∀ v w, g.interferes v w = true ↔ s(v, w) ∈ p.edges

namespace Represents
variable {g : InterferenceGraph} {p : PlainGraph}

theorem empty (size : Nat) : (InterferenceGraph.empty size).Represents .empty where
  sized v row hrow := by
    rw [row?_empty] at hrow
    cases hrow
  simple := .empty
  contains v := by simp [InterferenceGraph.contains, row?_empty, PlainGraph.empty]
  interferes v w := by simp [InterferenceGraph.interferes, row?_empty, PlainGraph.empty]

theorem symm (h : g.Represents p) {v w : Nat} (hvw : g.interferes v w = true) :
    g.interferes w v = true := by
  rw [h.interferes, Sym2.eq_swap, ← h.interferes]
  exact hvw

theorem addNode (h : g.Represents p) (v : Nat) : (g.addNode v).Represents (p.addNode v) where
  sized := h.sized.addNode v
  simple := h.simple.addNode v
  contains x := by
    rw [contains_addNode, h.contains, PlainGraph.addNode, Finset.mem_insert, or_comm]
  interferes x y := by
    rw [interferes_addNode, h.interferes, PlainGraph.addNode]

theorem addEdge (h : g.Represents p) (v w : Nat) :
    (g.addEdge v w).Represents (p.addEdge v w) where
  sized := h.sized.addEdge v w
  simple := h.simple.addEdge v w
  contains x := by
    rw [contains_addEdge, h.contains, PlainGraph.addEdge]
    by_cases hvw : v = w
    · simp [hvw]
    · simp only [hvw, if_false, Finset.mem_insert, ne_eq, not_false_eq_true, true_and]
      tauto
  interferes x y := by
    rw [interferes_addEdge h.sized, h.interferes, PlainGraph.addEdge]
    by_cases hvw : v = w
    · simp [hvw]
    · simp [hvw, or_comm]

theorem removeNode (h : g.Represents p) (v : Nat) :
    (g.removeNode v).Represents (p.removeNode v) where
  sized := (h.sized.removeNode v).1
  simple := h.simple.removeNode v
  contains x := by
    rw [contains_removeNode, h.contains, PlainGraph.removeNode, Finset.mem_erase, and_comm]
  interferes x y := by
    rw [interferes_removeNode fun _ _ => h.symm, h.interferes, PlainGraph.removeNode,
      Finset.mem_filter, Sym2.mem_iff, not_or, ne_comm, ne_comm (a := y)]

theorem toFinset_neighbors (h : g.Represents p) (v : Nat) :
    (g.neighbors v).toFinset = p.neighbors v := by
  ext w
  rw [List.mem_toFinset, mem_neighbors, h.interferes, h.simple.mem_neighbors]

theorem degree (h : g.Represents p) (v : Nat) : g.degree v = (p.neighbors v).card := by
  rw [← h.toFinset_neighbors, List.toFinset_card_of_nodup (g.nodup_neighbors v),
    InterferenceGraph.degree]

theorem mem_nodes (h : g.Represents p) {v : Nat} : v ∈ g.nodes ↔ v ∈ p.nodes := by
  rw [InterferenceGraph.nodes, List.mem_filter, h.contains, and_iff_right_iff_imp]
  intro hv
  obtain ⟨row, hrow⟩ := contains_iff.mp ((h.contains v).mpr hv)
  rw [List.mem_range]
  by_contra hlt
  rw [row?, Array.getElem?_eq_none (Nat.not_lt.mp hlt)] at hrow
  cases hrow

private theorem toFinset_nodes (h : g.Represents p) : g.nodes.toFinset = p.nodes := by
  ext v
  rw [List.mem_toFinset, h.mem_nodes]

theorem numNodes (h : g.Represents p) : g.numNodes = p.nodes.card := by
  rw [← h.toFinset_nodes, List.toFinset_card_of_nodup g.nodup_nodes, InterferenceGraph.numNodes]

private theorem foldl_add_eq_sum (f : Nat → Nat) {vs : List Nat} (hvs : vs.Nodup) (start : Nat) :
    vs.foldl (fun total v => total + f v) start = start + ∑ v ∈ vs.toFinset, f v := by
  induction vs generalizing start with
  | nil => rfl
  | cons v vs ih =>
    obtain ⟨hv, hvs⟩ := List.nodup_cons.mp hvs
    have hv : v ∉ vs.toFinset := by simpa using hv
    rw [List.foldl_cons, ih hvs, List.toFinset_cons, Finset.sum_insert hv, Nat.add_assoc]

theorem numEdges (h : g.Represents p) : g.numEdges = p.edges.card := by
  have hends : g.nodes.foldl (fun ends v => ends + g.degree v) 0 = 2 * p.edges.card := by
    rw [foldl_add_eq_sum _ g.nodup_nodes, h.toFinset_nodes, ← h.simple.sum_card_neighbors,
      Nat.zero_add]
    exact Finset.sum_congr rfl fun v _ => h.degree v
  rw [InterferenceGraph.numEdges, hends, Nat.mul_div_cancel_left _ Nat.two_pos]

end Represents

end InterferenceGraph

end RegisterColoring
