import RegisterColoring.Proofs.Allocation.Outcome
/-!
# Every variable gets a place

A run over a built graph whose variables pass the first checks always has a result. All that
the phases look up on the way is there, and the result gives one place to each variable of the
graph and to nothing else.
-/
namespace RegisterColoring

/-- What the phases look up in an analysed graph is there. -/
structure FlowGraph.InRange (g : FlowGraph) : Prop where
  edges : ∀ e ∈ g.edges, e.1 < g.blocks.size ∧ e.2 < g.blocks.size
  lines : ∀ b ∈ g.blocks, ∀ line ∈ b.lines,
    (b.usesAt? line).isSome = true ∧ (b.defsAt? line).isSome = true
  ranges : ∀ b ∈ g.blocks, ∀ r ∈ b.ranges, r.1 < g.vars.size

/-- There are `size` rows of `size` bits, and neighbours are numbers of rows. -/
structure InterferenceGraph.InRange (g : InterferenceGraph) (size : Nat) : Prop where
  rows : g.rows.size = size
  bits : ∀ v row, g.row? v = some row → row.size = size
  neighbors : ∀ v, ∀ w ∈ g.neighbors v, v < size ∧ w < size

/-- The allocation gives one place to each of the variables, which are listed once. -/
structure Allocation.Covers (a : Allocation) (vars : List Variable) : Prop where
  vars_eq : a.vars = vars
  nodup : a.vars.Nodup
  one_place : ∀ v ∈ vars, a.isSpilled v = !(a.register? v).isSome
  spilled_iff : ∀ v, a.isSpilled v = true ↔ ∃ slot, a.offset? v = some slot
  no_other : ∀ v, (a.register? v).isSome = true ∨ a.isSpilled v = true → v ∈ vars
  located : ∀ v, (a.location? v).isSome = true ↔ v ∈ vars

namespace Block

private theorem isSome_usesAt? {b : Block} {line : Nat} (h : b.HasLine line) :
    (b.usesAt? line).isSome = true ∧ (b.defsAt? line).isSome = true := by
  obtain ⟨hfirst, hsize⟩ := h
  have huse : line - b.first < b.uses.perLine.size := hsize .use
  have hdef : line - b.first < b.defs.perLine.size := hsize .define
  simp [usesAt?, defsAt?, hfirst, huse, hdef]

private theorem mem_referenced_of_ranges {b : Block} {r : Nat × List Range}
    (h : r ∈ b.localRanges) :
    r.1 ∈ b.referenced := by
  obtain ⟨v, hv, hr⟩ := List.mem_filterMap.mp h
  split at hr
  · cases hr
  · obtain rfl := Option.some.inj hr
    exact hv

end Block

namespace FlowGraph.Analysed
variable {g : FlowGraph} {f : Function} {bounds : List Bounds}

private theorem referenced_lt (h : g.Analysed f bounds) :
    ∀ b ∈ g.blocks, ∀ v ∈ b.referenced, v < g.vars.size := by
  intro b hb v hv
  have huses := h.linesOf_lt .use b hb v
  rcases Block.mem_referenced.mp hv with huse | hdef | hin | hout
  · exact huses huse
  · exact h.linesOf_lt .define b hb v hdef
  · rw [h.liveIn_eq b hb, Block.mem_liveBefore] at hin
    rcases hin with huse | ⟨hout, _⟩
    · exact huses huse
    · exact h.liveOut_lt b hb v hout
  · exact h.liveOut_lt b hb v hout

theorem inRange_analyzeIntervals (h : g.Analysed f bounds) : g.analyzeIntervals.InRange where
  edges _ he := h.analyzeIntervals.edge_lt he
  lines b hb line hline := Block.isSome_usesAt? (h.analyzeIntervals.hasLine b hb line hline)
  ranges b hb r hr := by
    obtain ⟨c, hc, rfl⟩ := Array.mem_map.mp hb
    exact h.referenced_lt c hc _ (Block.mem_referenced_of_ranges hr)

end FlowGraph.Analysed

namespace InterferenceGraph

private theorem Sized.inRange {g : InterferenceGraph} (h : g.Sized) : g.InRange g.rows.size where
  rows := rfl
  bits := h
  neighbors v w hw := by
    rw [mem_neighbors] at hw
    refine ⟨?_, h.lt_size hw⟩
    obtain ⟨row, hrow, _⟩ := interferes_iff.mp hw
    exact (Array.getElem?_eq_some_iff.mp (Option.join_eq_some_iff.mp hrow)).1

private theorem inRange_removed {g : InterferenceGraph} (h : g.Sized) (removed : List Nat) :
    (removed.foldl removeNode g).InRange g.rows.size := by
  induction removed generalizing g with
  | nil => exact h.inRange
  | cons v removed ih =>
    obtain ⟨hsized, hsize⟩ := h.removeNode v
    rw [List.foldl_cons, ← hsize]
    exact ih hsized

end InterferenceGraph

theorem FlowGraph.Describes.inRange_removed {g : FlowGraph} {f : Function} {bounds : List Bounds}
    (h : g.Describes f bounds) (removed : List Nat) :
    (removed.foldl InterferenceGraph.removeNode
      (InterferenceGraph.ofFlow g.analyze.1)).InRange g.vars.size := by
  have hanalysed := h.analyze
  have hsized := InterferenceGraph.sized_ofFlow hanalysed.first_le_last
  have hsize : (InterferenceGraph.ofFlow g.analyze.1).rows.size = g.vars.size :=
    InterferenceGraph.size_ofFlow (fun _ hb _ _ _ hv => hanalysed.idsAt_lt hb hv)
      hanalysed.liveOut_lt
  rw [← hsize]
  exact InterferenceGraph.inRange_removed hsized removed

private theorem Allocator.Places.covers {a : Allocator} {g : FlowGraph} {t : SymbolTable}
    {nodes : List Node} {placed : List Placement} (h : a.Places g t nodes placed)
    (hn : g.vars.toList.Nodup) : (Allocation.ofPlacements placed).Covers g.vars.toList := by
  have hlocated : ∀ v, ((Allocation.ofPlacements placed).location? v).isSome = true ↔
      v ∈ g.vars.toList := by
    intro v
    rw [Option.isSome_iff_exists, ← h.vars_eq, List.mem_map]
    constructor
    · intro hv
      obtain ⟨l, hl⟩ := hv
      obtain ⟨p, hp, hvar, _⟩ := (h.location?_iff hn v l).mp hl
      exact ⟨p, hp, hvar⟩
    · intro hv
      obtain ⟨p, hp, hvar⟩ := hv
      exact ⟨p.location, (h.location?_iff hn v _).mpr ⟨p, hp, hvar, rfl⟩⟩
  have hvars : (Allocation.ofPlacements placed).vars = g.vars.toList := h.vars_eq
  have hnodup := h.nodup hn
  refine ⟨hvars, hvars ▸ hn, ?_, ?_, ?_, hlocated⟩
  · intro v hv
    obtain ⟨l, hl⟩ := Option.isSome_iff_exists.mp ((hlocated v).mpr hv)
    cases l with
    | register r =>
      rw [Allocation.register?_eq_some.mpr hl]
      cases hspilled : (Allocation.ofPlacements placed).isSpilled v with
      | false => rfl
      | true =>
        obtain ⟨slot, hslot⟩ := (Allocation.isSpilled_iff hnodup v).mp hspilled
        cases hl.symm.trans hslot
    | memory slot =>
      rw [(Allocation.isSpilled_iff hnodup v).mpr ⟨slot, hl⟩]
      cases hr : (Allocation.ofPlacements placed).register? v with
      | none => rfl
      | some r => cases hl.symm.trans (Allocation.register?_eq_some.mp hr)
  · intro v
    simp only [Allocation.isSpilled_iff hnodup, Allocation.offset?_eq_some hnodup]
  · intro v hv
    rw [← hlocated]
    rcases hv with hv | hv
    · obtain ⟨r, hr⟩ := Option.isSome_iff_exists.mp hv
      rw [Allocation.register?_eq_some.mp hr]
      rfl
    · obtain ⟨slot, hslot⟩ := (Allocation.isSpilled_iff hnodup v).mp hv
      rw [hslot]
      rfl

/-- A run over a built graph fails only in its first checks. It ends its sweeps at a fixed
point, looks up nothing that is not there, and places exactly the variables of the graph. -/
theorem Allocator.allocate_total {f : Function} {s : SymbolTable} {g : FlowGraph}
    (hg : g.Built f s) (a : Allocator) (t : SymbolTable)
    (hpass : ∀ v ∈ g.vars.toList, Node.Passes a.pools t v) :
    ∃ result, (a.allocate g t).result = .ok result ∧ result.Covers g.vars.toList ∧
      (∀ nodes, Node.ofFlow a.pools t g = .ok nodes →
        nodes.map Node.id = List.range g.vars.size ∧ (a.reset g t).1.nodes = .ok nodes) ∧
      (∀ id, g.Settled g.analyzeSets.1.blocks id) ∧ (a.allocate g t).flow.InRange ∧
      ∀ removed : List Nat, (removed.foldl InterferenceGraph.removeNode
        (InterferenceGraph.ofFlow (a.allocate g t).flow)).InRange g.vars.size := by
  obtain ⟨bounds, hdescribes⟩ := hg.describes
  obtain ⟨result, h⟩ := exists_allocate hpass
  obtain ⟨nodes, placed, hplaces, hflow, rfl⟩ := exists_places h
  rw [hflow]
  refine ⟨_, h, hplaces.covers hdescribes.nodup,
    fun _ hnodes => ⟨(Node.ofFlow_lists hnodes).ids, nodes_reset hnodes⟩,
    FlowGraph.settled_analyzeSets (hdescribes.linesOf_lt .use),
    hdescribes.analyzeSets.inRange_analyzeIntervals, hdescribes.inRange_removed⟩

/-- One register for three variables, two of which have to be spilled. -/
theorem Allocator.spin_allocate_total : ∃ g, FlowGraph.build spin spinTable = .ok g ∧
    (∀ v ∈ g.vars.toList, Node.Passes (Pools.standard.take 1 0) spinTable v) ∧
    ∃ result, ((new (Pools.standard.take 1 0)).allocate g spinTable).result = .ok result ∧
      result.Covers [⟨0⟩, ⟨1⟩, ⟨2⟩] := by
  obtain ⟨g, hg, hpass, hvars⟩ : ∃ g, FlowGraph.build spin spinTable = .ok g ∧
      (∀ v ∈ g.vars.toList, Node.Passes (Pools.standard.take 1 0) spinTable v) ∧
      g.vars.toList = [⟨0⟩, ⟨1⟩, ⟨2⟩] := ⟨_, rfl, by decide +kernel, by decide +kernel⟩
  obtain ⟨result, h, hcovers, _⟩ :=
    allocate_total (.build hg) (new (Pools.standard.take 1 0)) spinTable hpass
  exact ⟨g, hg, hpass, result, h, hvars ▸ hcovers⟩

end RegisterColoring
