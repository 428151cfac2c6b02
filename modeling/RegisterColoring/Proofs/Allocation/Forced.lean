import RegisterColoring.Proofs.Allocation.Spills
import RegisterColoring.Proofs.Live.Passes
/-!
# No spill without need

A node is spilled only when its neighbours hold every register of its pool. No decision is taken
back, so they still hold them at the end.
-/
namespace RegisterColoring

namespace Coloring
variable {pools : Pools} {g : InterferenceGraph}

private theorem getElem?_foldl_assign_append {before after : List Node}
    (hn : ((before ++ after).map Node.id).Nodup) {id : Nat} {c : Color}
    (h : (before.foldl (assign pools g) ∅)[id]? = some c) :
    ((before ++ after).foldl (assign pools g) ∅)[id]? = some c := by
  rcases (foldl_assign_spec pools g before ∅).1 id c h with hempty | ⟨n, hmem, rfl, _⟩
  · rw [Std.TreeMap.getElem?_emptyc] at hempty
    cases hempty
  · rw [List.map_append, List.nodup_append] at hn
    rw [List.foldl_append, getElem?_foldl_assign, h]
    intro m hm hid
    exact hn.2.2 n.id (List.mem_map_of_mem hmem) m.id (List.mem_map_of_mem hm) hid.symm

/-- Where all nodes are decided one after the other, the neighbours of a spilled node hold every
register of its pool. -/
theorem neighbors_hold_of_spilled {nodes : List Node} (hn : (nodes.map Node.id).Nodup) {n : Node}
    (hmem : n ∈ nodes) (h : (nodes.foldl (assign pools g) ∅)[n.id]? = some .spilled)
    {r : Register} (hr : r ∈ pools.ofClass n.file) :
    ∃ w, g.interferes n.id w = true ∧
      (nodes.foldl (assign pools g) ∅)[w]? = some (.register r) := by
  obtain ⟨before, after, rfl⟩ := List.append_of_mem hmem
  let colors := before.foldl (assign pools g) ∅
  have hdecided : (assign pools g colors n)[n.id]? = some .spilled := by
    rw [List.foldl_append, List.foldl_cons, getElem?_foldl_assign] at h
    · exact h
    · intro m hm hid
      rw [List.map_append, List.map_cons] at hn
      have hafter := (List.nodup_cons.mp (List.nodup_append.mp hn).2.1).1
      exact hafter (hid ▸ List.mem_map_of_mem hm)
  rw [getElem?_assign, if_pos rfl, Option.some.injEq, Color.ofChoice_eq_spilled] at hdecided
  obtain ⟨w, hw, hcolor⟩ := exists_holder_of_pick? hdecided hr
  exact ⟨w, hw, getElem?_foldl_assign_append hn hcolor⟩

end Coloring

namespace Allocator

private theorem Places.exists_neighbor {a : Allocator} {g : FlowGraph} {t : SymbolTable}
    {nodes : List Node} {placed : List Placement} (h : a.Places g t nodes placed) {p : Placement}
    (hp : p ∈ placed) {slot : Nat} (hslot : p.location = .memory slot) {r : Register}
    (hr : r ∈ a.pools.ofClass p.node.file) :
    ∃ q ∈ placed, (InterferenceGraph.ofFlow g.analyze.1).interferes p.node.id q.node.id = true ∧
      q.location = .register r := by
  let graph := InterferenceGraph.ofFlow g.analyze.1
  let removals := Removal.all a.pools graph nodes
  have hperm := Coloring.perm_decided removals
  have hids : ((Coloring.stack removals ++ Coloring.candidates removals).map Node.id).Nodup :=
    (hperm.map Node.id).nodup_iff.mpr (h.nodup_removed graph)
  have hremoved : p.node ∈ Coloring.stack removals ++ Coloring.candidates removals := by
    rw [hperm.mem_iff, (Removal.all_perm a.pools graph h.lists.nodup).mem_iff]
    exact h.node_mem hp
  have hspilled := h.laidOut.color_eq p hp
  rw [hslot] at hspilled
  obtain ⟨w, hw, hcolor⟩ := Coloring.neighbors_hold_of_spilled hids hremoved hspilled hr
  -- a node that holds a register has been placed there
  obtain ⟨n, hn, rfl, _⟩ := (Coloring.colors_spec a.pools graph removals).2 w r hcolor
  rw [(Removal.all_perm a.pools graph h.lists.nodup).mem_iff, ← h.laidOut.nodes_eq] at hn
  obtain ⟨q, hq, rfl⟩ := List.mem_map.mp hn
  refine ⟨q, hq, hw, ?_⟩
  have hplaced := (h.laidOut.color_eq q hq).symm.trans hcolor
  exact Location.color_eq_register.mp (Option.some.inj hplaced)

/-- Whatever the pools hold, each register that a spilled variable could use is held by a
variable that interferes with it. -/
theorem spills_are_forced {g : FlowGraph} (hg : g.Obtained) {a : Allocator} {t : SymbolTable}
    {result : Allocation} (h : (a.allocate g t).result = .ok result) {v : Variable}
    (hv : result.isSpilled v = true) :
    ∃ i d, g.vars.var? i = some v ∧ t.declaration? v = some d ∧
      ∀ r ∈ a.pools.ofClass (RegisterClass.ofType d.type), ∃ j w,
        (InterferenceGraph.ofFlow (a.allocate g t).flow).interferes i j = true ∧
        g.vars.var? j = some w ∧ result.register? w = some r := by
  have hnodup := hg.nodup_vars
  obtain ⟨nodes, placed, hplaces, hflow, rfl⟩ := exists_places h
  obtain ⟨p, hp, rfl, slot, hmemory⟩ := (Allocation.isSpilled_iff_exists v).mp hv
  obtain ⟨d, hd, hfile, _⟩ := hplaces.lists.declared p.node (hplaces.node_mem hp)
  refine ⟨p.node.id, d, hplaces.lists.var?_id (hplaces.node_mem hp), hd, ?_⟩
  intro r hr
  rw [← hfile] at hr
  obtain ⟨q, hq, hinterferes, hregister⟩ := hplaces.exists_neighbor hp hmemory hr
  refine ⟨q.node.id, q.node.var, hflow ▸ hinterferes,
    hplaces.lists.var?_id (hplaces.node_mem hq), ?_⟩
  rw [Allocation.register?_eq_some, hplaces.location?_iff hnodup]
  exact ⟨q, hq, rfl, hregister⟩

/-- A pool that holds one register twice. `b` is simplified because of the length of the pool, and
spilled because `c` holds all of it. -/
theorem spin_spills_are_forced : ∃ g result, FlowGraph.build spin spinTable = .ok g ∧
    let pools : Pools := ⟨[⟨0, .general⟩, ⟨0, .general⟩], []⟩
    let run := (new pools).allocate (g.pass .sets) spinTable
    run.result = .ok result ∧ result.isSpilled ⟨1⟩ = true ∧
    ∃ j w, (InterferenceGraph.ofFlow run.flow).interferes 1 j = true ∧
      (g.pass .sets).vars.var? j = some w ∧ result.register? w = some ⟨0, .general⟩ := by
  let pools : Pools := ⟨[⟨0, .general⟩, ⟨0, .general⟩], []⟩
  obtain ⟨g, hg, hvar, hspilled⟩ : ∃ g, FlowGraph.build spin spinTable = .ok g ∧
      (g.pass .sets).vars.id? ⟨1⟩ = some 1 ∧
      ((new pools).allocate (g.pass .sets) spinTable).result.toOption.map
        (fun result => result.isSpilled ⟨1⟩) = some true :=
    ⟨_, rfl, by decide +kernel, by decide +kernel⟩
  cases hresult : ((new pools).allocate (g.pass .sets) spinTable).result with
  | error e =>
    rw [hresult] at hspilled
    cases hspilled
  | ok result =>
    rw [hresult] at hspilled
    have hgraph : (g.pass .sets).Obtained := .pass (.built (.build hg)) .sets
    have hv := Option.some.inj hspilled
    obtain ⟨i, d, hi, hd, hheld⟩ := spills_are_forced hgraph hresult hv
    obtain rfl : i = 1 := by
      have hid := Numbering.id?_of_var? hgraph.nodup_vars hi
      exact Option.some.inj (hid.symm.trans hvar)
    obtain rfl : (⟨"b", .int, ⟨0⟩⟩ : Declaration) = d := Option.some.inj hd
    exact ⟨g, result, hg, hresult, hv, hheld ⟨0, .general⟩ (by decide)⟩

end Allocator

end RegisterColoring
