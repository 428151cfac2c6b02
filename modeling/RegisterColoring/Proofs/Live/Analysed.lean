import RegisterColoring.Live.Intervals
import RegisterColoring.Proofs.Live.Paths

namespace RegisterColoring

namespace FlowGraph

/-- A described graph with the live sets of its analysis. -/
structure Analysed (g : FlowGraph) (f : Function) (bounds : List Bounds) : Prop
    extends g.Describes f bounds where
  liveIn_eq : ∀ b ∈ g.blocks, b.liveIn = b.liveBefore b.liveOut
  mem_liveOut : ∀ id b, g.blocks[id]? = some b → ∀ v,
    v ∈ b.liveOut ↔ ∃ next ∈ g.succs id, v ∈ liveInOf g.blocks next
  liveOut_lt : ∀ b ∈ g.blocks, ∀ v ∈ b.liveOut, v < g.vars.size

theorem sameRecords_analyzeSets (g : FlowGraph) : g.SameRecords g.analyzeSets.1 where
  blocks := by
    have h := congrArg Array.toList g.partway_analyzeSets.skeleton
    rwa [Array.toList_map, Array.toList_map] at h
  edges := rfl
  vars := rfl

private theorem sameRecords_analyzeIntervals (g : FlowGraph) :
    g.SameRecords g.analyzeIntervals where
  blocks := by
    rw [analyzeIntervals, Array.toList_map, List.map_map]
    rfl
  edges := rfl
  vars := rfl

private theorem liveInOf_analyzeIntervals (g : FlowGraph) (id : Nat) :
    liveInOf g.analyzeIntervals.blocks id = liveInOf g.blocks id := by
  simp only [liveInOf, analyzeIntervals, Array.getElem?_map]
  cases g.blocks[id]? <;> rfl

theorem Describes.analyzeSets {g : FlowGraph} {f : Function} {bounds : List Bounds}
    (h : g.Describes f bounds) : g.analyzeSets.1.Analysed f bounds where
  toDescribes := h.of_sameRecords g.sameRecords_analyzeSets
  liveIn_eq b hb := by
    obtain ⟨id, hb⟩ := Array.mem_iff_getElem?.mp hb
    obtain ⟨hin, hout⟩ := settled_analyzeSets (h.linesOf_lt .use) id b hb
    rw [hin, hout]
  mem_liveOut id b hb v := by
    rw [(settled_analyzeSets (h.linesOf_lt .use) id b hb).2, mem_outOf]
    exact Iff.rfl
  liveOut_lt b hb v hv := by
    obtain ⟨id, hb⟩ := Array.mem_iff_getElem?.mp hb
    obtain ⟨next, _, hused⟩ := (g.partway_analyzeSets.justified id b hb).2 v hv
    exact hused.lt (h.linesOf_lt .use)

theorem Analysed.analyzeIntervals {g : FlowGraph} {f : Function} {bounds : List Bounds}
    (h : g.Analysed f bounds) : g.analyzeIntervals.Analysed f bounds where
  toDescribes := h.toDescribes.of_sameRecords g.sameRecords_analyzeIntervals
  liveIn_eq b hb := by
    obtain ⟨c, hc, rfl⟩ := Array.mem_map.mp hb
    exact h.liveIn_eq c hc
  mem_liveOut id b hb v := by
    rw [FlowGraph.analyzeIntervals, Array.getElem?_map] at hb
    obtain ⟨c, hc, rfl⟩ := Option.map_eq_some_iff.mp hb
    simp only [liveInOf_analyzeIntervals]
    exact h.mem_liveOut id c hc v
  liveOut_lt b hb v hv := by
    obtain ⟨c, hc, rfl⟩ := Array.mem_map.mp hb
    exact h.liveOut_lt c hc v hv

theorem Describes.analyze {g : FlowGraph} {f : Function} {bounds : List Bounds}
    (h : g.Describes f bounds) : g.analyze.1.Analysed f bounds :=
  h.analyzeSets.analyzeIntervals

end FlowGraph

end RegisterColoring
