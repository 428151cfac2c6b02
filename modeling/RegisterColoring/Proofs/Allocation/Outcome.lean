import RegisterColoring.Proofs.Allocation.Phases
import RegisterColoring.Proofs.Interference.Edges
import RegisterColoring.Proofs.Live.Analysed

namespace RegisterColoring

theorem ValueType.size_pos (ty : ValueType) : 0 < ty.size := by
  cases ty <;> simp [size]

namespace Allocator

theorem allocate_eq_ok_iff (a : Allocator) (g : FlowGraph) (t : SymbolTable) (result : Allocation) :
    (a.allocate g t).result = .ok result ↔ ∃ nodes placed, Node.ofFlow a.pools t g = .ok nodes ∧
      Placement.layout (ColoringRun.ofFlow a.pools g.analyze.1 nodes).colors 0 nodes = .ok placed ∧
      result = .ofPlacements placed := by
  cases houtcome : outcome a.pools g t with
  | error e =>
    have hnodes := (outcome_eq_error_iff _ _ _ _).mp houtcome
    simp [allocate_of_error houtcome, hnodes]
  | ok placed =>
    obtain ⟨nodes, hnodes, hlayout⟩ := (outcome_eq_ok_iff _ _ _ _).mp houtcome
    simp [allocate_of_ok houtcome, hnodes, hlayout, eq_comm]

theorem flow_allocate {a : Allocator} {g : FlowGraph} {t : SymbolTable} {nodes : List Node}
    (h : Node.ofFlow a.pools t g = .ok nodes) : (a.allocate g t).flow = g.analyze.1 := by
  cases houtcome : outcome a.pools g t with
  | error e => cases h.symm.trans ((outcome_eq_error_iff _ _ _ _).mp houtcome)
  | ok placed => rw [allocate_of_ok houtcome]

theorem run_eq_ok_iff (a : Allocator) (f : Function) (t : SymbolTable) (result : Allocation) :
    (a.run f t).2 = .ok result ↔
      ∃ g, FlowGraph.build f t = .ok g ∧ (a.allocate g t).result = .ok result := by
  unfold run
  cases FlowGraph.build f t with
  | error e => simp
  | ok g => simp

/-- The nodes of a graph and the places that its colors give them. -/
structure Places (a : Allocator) (g : FlowGraph) (t : SymbolTable) (nodes : List Node)
    (placed : List Placement) : Prop where
  lists : Node.Lists t g nodes
  laidOut : Placement.LaidOut (ColoringRun.ofFlow a.pools g.analyze.1 nodes).colors 0 nodes placed

theorem exists_places {a : Allocator} {g : FlowGraph} {t : SymbolTable} {result : Allocation}
    (h : (a.allocate g t).result = .ok result) :
    ∃ nodes placed, a.Places g t nodes placed ∧ (a.allocate g t).flow = g.analyze.1 ∧
      result = .ofPlacements placed := by
  obtain ⟨nodes, placed, hnodes, hplaced, rfl⟩ := (a.allocate_eq_ok_iff g t result).mp h
  exact ⟨nodes, placed, ⟨Node.ofFlow_lists hnodes, Placement.layout_laidOut hplaced⟩,
    flow_allocate hnodes, rfl⟩

/-- A run whose variables all pass has a result. -/
theorem exists_allocate {a : Allocator} {g : FlowGraph} {t : SymbolTable}
    (h : ∀ v ∈ g.vars.toList, Node.Passes a.pools t v) :
    ∃ result, (a.allocate g t).result = .ok result := by
  obtain ⟨nodes, hnodes⟩ := (Node.exists_ofFlow_iff a.pools t g).mpr h
  cases houtcome : outcome a.pools g t with
  | error e => cases hnodes.symm.trans ((outcome_eq_error_iff _ _ _ _).mp houtcome)
  | ok placed => exact ⟨.ofPlacements placed, by rw [allocate_of_ok houtcome]⟩

namespace Places
variable {a : Allocator} {g : FlowGraph} {t : SymbolTable} {nodes : List Node}
  {placed : List Placement}

theorem node_mem (h : a.Places g t nodes placed) {p : Placement} (hp : p ∈ placed) :
    p.node ∈ nodes := by
  rw [← h.laidOut.nodes_eq]
  exact List.mem_map_of_mem hp

theorem vars_eq (h : a.Places g t nodes placed) :
    (placed.map fun p => p.node.var) = g.vars.toList := by
  rw [← h.lists.vars, ← h.laidOut.nodes_eq, List.map_map]
  rfl

theorem exists_placement (h : a.Places g t nodes placed) {id : Nat} {v : Variable}
    (hid : g.vars.var? id = some v) : ∃ p ∈ placed, p.node.id = id ∧ p.node.var = v := by
  obtain ⟨n, hn, rfl⟩ := h.lists.exists_node (Numbering.var?_lt_size hid)
  have hvar := h.lists.var?_id hn
  rw [hid, Option.some.injEq] at hvar
  rw [← h.laidOut.nodes_eq] at hn
  obtain ⟨p, hp, rfl⟩ := List.mem_map.mp hn
  exact ⟨p, hp, rfl, hvar.symm⟩

theorem nodup (h : a.Places g t nodes placed) (hn : g.vars.toList.Nodup) :
    (placed.map fun p => p.node.var).Nodup :=
  h.vars_eq ▸ hn

theorem location?_iff (h : a.Places g t nodes placed) (hn : g.vars.toList.Nodup) (v : Variable)
    (l : Location) : (Allocation.ofPlacements placed).location? v = some l ↔
      ∃ p ∈ placed, p.node.var = v ∧ p.location = l :=
  Allocation.location?_ofPlacements (h.nodup hn) v l

theorem register_mem (h : a.Places g t nodes placed) {p : Placement} (hp : p ∈ placed)
    {r : Register} (hr : p.location = .register r) : r ∈ a.pools.ofClass p.node.file := by
  have hcolor := h.laidOut.color_eq p hp
  rw [hr] at hcolor
  obtain ⟨n, hn, hid, hmem⟩ := (Coloring.colors_spec _ _ _).2 _ _ hcolor
  have hn' := (Removal.all_perm _ _ h.lists.nodup).mem_iff.mp hn
  have hids : (nodes.map Node.id).Nodup := h.lists.ids ▸ List.nodup_range
  rw [← List.inj_on_of_nodup_map hids hn' (h.node_mem hp) hid]
  exact hmem

section Interfering
variable (h : a.Places g t nodes placed)
  (hblocks : ∀ b ∈ g.analyze.1.blocks, b.first ≤ b.last) {p q : Placement} (hp : p ∈ placed)
  (hq : q ∈ placed)
  (hpq : (InterferenceGraph.ofFlow g.analyze.1).interferes p.node.id q.node.id = true)
include h hblocks hp hq hpq

theorem register_ne {r s : Register} (hr : p.location = .register r)
    (hs : q.location = .register s) : r ≠ s := by
  intro he
  have hproper := Coloring.proper_colors
    (fun _ _ => InterferenceGraph.symm_ofFlow hblocks)
    (fun _ _ => InterferenceGraph.ne_of_interferes_ofFlow hblocks) a.pools
    (Removal.all a.pools (InterferenceGraph.ofFlow g.analyze.1) nodes)
  have hcp := h.laidOut.color_eq p hp
  have hcq := h.laidOut.color_eq q hq
  rw [hr] at hcp
  rw [hs, ← he] at hcq
  exact hproper _ _ r hpq hcp hcq

/-- Interfering nodes are in different places, and their slots do not overlap. -/
theorem location_ne : p.location ≠ q.location ∧ p.Apart q := by
  have hne : p ≠ q := by
    intro he
    rw [he] at hpq
    exact InterferenceGraph.ne_of_interferes_ofFlow hblocks hpq rfl
  have hapart := h.laidOut.apart hp hq hne
  refine ⟨?_, hapart⟩
  intro he
  cases hl : p.location with
  | register r => exact h.register_ne hblocks hp hq hpq hl (he ▸ hl) rfl
  | memory slot =>
    obtain ⟨d, _, _, hsize⟩ := h.lists.declared p.node (h.node_mem hp)
    obtain ⟨d', _, _, hsize'⟩ := h.lists.declared q.node (h.node_mem hq)
    have hpos := d.type.size_pos
    have hpos' := d'.type.size_pos
    have hslots := hapart slot slot hl (he ▸ hl)
    omega

end Interfering

end Places

end Allocator

end RegisterColoring
