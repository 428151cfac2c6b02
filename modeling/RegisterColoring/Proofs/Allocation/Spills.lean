import RegisterColoring.Command.Run
import RegisterColoring.Proofs.Allocation.Outcome
import RegisterColoring.Proofs.Coloring.Simplified

namespace RegisterColoring

private theorem Command.Options.distinct_pools (o : Options) : o.pools.Distinct := by
  have hstandard := Pools.Distinct.standard
  refine ⟨?_, ?_⟩
  · rw [pools]
    cases o.generalLimit with
    | none => exact hstandard.general
    | some n => exact (hstandard.take n 0).general
  · rw [pools]
    cases o.floatLimit with
    | none => exact hstandard.float
    | some n => exact (hstandard.take 0 n).float

namespace Allocation

private theorem isSpilled_ofPlacements {placed : List Placement}
    (hn : (placed.map fun p => p.node.var).Nodup) {p : Placement} (hp : p ∈ placed) :
    (ofPlacements placed).isSpilled p.node.var = p.isSpilled := by
  have hplace := (location?_ofPlacements hn p.node.var p.location).mpr ⟨p, hp, rfl, rfl⟩
  rw [Bool.eq_iff_iff, isSpilled_iff hn, hplace, Placement.isSpilled, Option.isSome_iff_exists]
  simp only [Option.some.injEq, Location.memory?_eq_some]

theorem filter_isSpilled {placed : List Placement}
    (hn : (placed.map fun p => p.node.var).Nodup) :
    (ofPlacements placed).vars.filter (ofPlacements placed).isSpilled =
      (ofPlacements placed).spilled := by
  have hvars : (ofPlacements placed).vars = placed.map fun p => p.node.var := rfl
  have hspilled : (ofPlacements placed).spilled = (Placement.spilled placed).map Node.var := rfl
  rw [hvars, hspilled, List.filter_map, Placement.spilled, List.map_map]
  congr 1
  apply List.filter_congr
  intro p hp
  exact isSpilled_ofPlacements hn hp

theorem noSpills_ofPlacements {placed : List Placement}
    (h : ∀ p ∈ placed, ∃ r, p.location = .register r) : (ofPlacements placed).noSpills = true := by
  have hnone : placed.filter Placement.isSpilled = [] := by
    rw [List.filter_eq_nil_iff]
    intro p hp
    obtain ⟨r, hr⟩ := h p hp
    simp [Placement.isSpilled, hr, Location.memory?]
  simp [noSpills, ofPlacements, Placement.spilled, hnone]

end Allocation

theorem FlowGraph.Analysed.interferes_lt {g : FlowGraph} {f : Function} {bounds : List Bounds}
    (h : g.Analysed f bounds) {x y : Nat}
    (hxy : (InterferenceGraph.ofFlow g).interferes x y = true) : y < g.vars.size := by
  have hsize : (InterferenceGraph.ofFlow g).rows.size = g.vars.size :=
    InterferenceGraph.size_ofFlow (fun _ hb _ _ _ hv => h.idsAt_lt hb hv) h.liveOut_lt
  rw [← hsize]
  exact (InterferenceGraph.sized_ofFlow h.first_le_last).lt_size hxy

namespace Allocator

namespace Places
variable {a : Allocator} {g : FlowGraph} {t : SymbolTable} {nodes : List Node}
  {placed : List Placement}

theorem nodup_removed (h : a.Places g t nodes placed) (graph : InterferenceGraph) :
    (((Removal.all a.pools graph nodes).map Removal.node).map Node.id).Nodup := by
  rw [((Removal.all_perm a.pools graph h.lists.nodup).map Node.id).nodup_iff, h.lists.ids]
  exact List.nodup_range

private theorem eased (h : a.Places g t nodes placed) {f : Function} {bounds : List Bounds}
    (hanalysed : g.analyze.1.Analysed f bounds) :
    let graph := InterferenceGraph.ofFlow g.analyze.1
    Removal.Eased a.pools graph (Removal.all a.pools graph nodes) := by
  apply Removal.all_eased
  · intro x y
    exact InterferenceGraph.symm_ofFlow hanalysed.first_le_last
  · intro x y hxy
    rw [h.lists.ids]
    exact List.mem_range.mpr (hanalysed.interferes_lt hxy)
  · rw [h.lists.ids]
    exact List.nodup_range

/-- A simplified node is placed in the register it was given when its turn came. -/
theorem exists_register (h : a.Places g t nodes placed) {f : Function} {bounds : List Bounds}
    (hanalysed : g.analyze.1.Analysed f bounds) (hpools : a.pools.Distinct) {p : Placement}
    (hp : p ∈ placed) :
    let run := ColoringRun.ofFlow a.pools g.analyze.1 nodes
    p.node ∈ Coloring.stack run.removals → ∃ r,
      (Coloring.selected a.pools run.graph run.removals)[p.node.id]? = some (.register r) ∧
        p.location = .register r := by
  intro run hstack
  have hids := h.nodup_removed run.graph
  obtain ⟨r, hr⟩ := Coloring.exists_selected hpools (h.eased hanalysed) hids p.node hstack
  refine ⟨r, hr, ?_⟩
  have hcolor := h.laidOut.color_eq p hp
  have hkept : run.colors[p.node.id]? = some (.register r) :=
    (Coloring.colors_eq_selected hids hstack).trans hr
  rw [hkept, Option.some.injEq] at hcolor
  exact Location.color_eq_register.mp hcolor.symm

theorem register_or_candidate (h : a.Places g t nodes placed) {f : Function}
    {bounds : List Bounds} (hanalysed : g.analyze.1.Analysed f bounds) (hpools : a.pools.Distinct)
    {p : Placement} (hp : p ∈ placed) :
    let run := ColoringRun.ofFlow a.pools g.analyze.1 nodes
    (∃ r, p.location = .register r) ∨ p.node ∈ Coloring.candidates run.removals := by
  intro run
  have hremoved : p.node ∈ run.removals.map Removal.node :=
    (Removal.all_perm a.pools run.graph h.lists.nodup).mem_iff.mpr (h.node_mem hp)
  rcases List.mem_append.mp (Coloring.mem_decided.mpr hremoved) with hstack | haside
  · obtain ⟨r, _, hlocation⟩ := h.exists_register hanalysed hpools hp hstack
    exact .inl ⟨r, hlocation⟩
  · exact .inr haside

private theorem exists_of_mem_stack (h : a.Places g t nodes placed) {graph : InterferenceGraph}
    {n : Node}
    (hn : n ∈ Coloring.stack (Removal.all a.pools graph nodes)) : ∃ p ∈ placed, p.node = n := by
  have hremoved := Coloring.mem_decided.mp (List.mem_append_left _ hn)
  rw [(Removal.all_perm a.pools graph h.lists.nodup).mem_iff, ← h.laidOut.nodes_eq] at hremoved
  exact List.mem_map.mp hremoved

end Places

/-- With pools that repeat no register, as all pools of the command line are, every simplified
node gets a register when its turn comes and keeps it. Only nodes put aside are spilled. -/
theorem simplified_never_spilled :
    Pools.standard.Distinct ∧ (∀ general float, (Pools.standard.take general float).Distinct) ∧
    (∀ o : Command.Options, o.pools.Distinct) ∧
    ∀ {f : Function} {s : SymbolTable} {g : FlowGraph} {a : Allocator} {t : SymbolTable}
      {result : Allocation}, g.Built f s → (a.allocate g t).result = .ok result →
      a.pools.Distinct → ∃ nodes, Node.ofFlow a.pools t g = .ok nodes ∧
        (a.reset g t).1.nodes = .ok nodes ∧
        let run := ColoringRun.ofFlow a.pools (a.allocate g t).flow nodes
        (∀ n ∈ Coloring.stack run.removals, ∃ r,
          (Coloring.selected a.pools run.graph run.removals)[n.id]? = some (.register r) ∧
            result.register? n.var = some r) ∧
        (∀ v, result.isSpilled v = true → ∃ n ∈ Coloring.candidates run.removals, n.var = v) ∧
        (Coloring.candidates run.removals = [] → result.noSpills = true) := by
  refine ⟨.standard, fun _ _ => .take .standard _ _, Command.Options.distinct_pools, ?_⟩
  intro f s g a t result hg h hpools
  obtain ⟨bounds, hdescribes⟩ := hg.describes
  obtain ⟨nodes, placed, hnodes, hlayout, rfl⟩ := (a.allocate_eq_ok_iff g t result).mp h
  have hplaces : a.Places g t nodes placed :=
    ⟨Node.ofFlow_lists hnodes, Placement.layout_laidOut hlayout⟩
  have hnodup := hdescribes.nodup
  rw [flow_allocate hnodes]
  refine ⟨nodes, hnodes, nodes_reset hnodes, ?_⟩
  intro run
  have hanalysed := hdescribes.analyze
  refine ⟨?_, ?_, ?_⟩
  · intro n hn
    obtain ⟨p, hp, rfl⟩ := hplaces.exists_of_mem_stack hn
    obtain ⟨r, hselected, hlocation⟩ := hplaces.exists_register hanalysed hpools hp hn
    refine ⟨r, hselected, ?_⟩
    rw [Allocation.register?_eq_some, hplaces.location?_iff hnodup]
    exact ⟨p, hp, rfl, hlocation⟩
  · intro v hv
    obtain ⟨p, hp, rfl, slot, hmemory⟩ := (Allocation.isSpilled_iff_exists v).mp hv
    rcases hplaces.register_or_candidate hanalysed hpools hp with ⟨r, hlocation⟩ | haside
    · rw [hlocation] at hmemory
      cases hmemory
    · exact ⟨p.node, haside, rfl⟩
  · intro hnone
    apply Allocation.noSpills_ofPlacements
    intro p hp
    refine (hplaces.register_or_candidate hanalysed hpools hp).resolve_right ?_
    exact hnone ▸ List.not_mem_nil

/-- Of three variables that interfere with each other, two registers leave one to be put aside. -/
theorem spin_simplified_never_spilled : ∃ g result, FlowGraph.build spin spinTable = .ok g ∧
    ((new { Command.Options.empty with generalLimit := some 2 }.pools).allocate g
      spinTable).result = .ok result ∧
    (∃ r, result.register? ⟨1⟩ = some r) ∧ (∃ r, result.register? ⟨2⟩ = some r) ∧
    ∀ v, result.isSpilled v = true → v = ⟨0⟩ := by
  let pools := { Command.Options.empty with generalLimit := some 2 }.pools
  let a : Node := ⟨0, ⟨0⟩, .general, 4⟩
  let b : Node := ⟨1, ⟨1⟩, .general, 4⟩
  let c : Node := ⟨2, ⟨2⟩, .general, 4⟩
  obtain ⟨g, hg, hpass, hnodes, hstack, hcandidates⟩ :
      ∃ g, FlowGraph.build spin spinTable = .ok g ∧
      (∀ v ∈ g.vars.toList, Node.Passes pools spinTable v) ∧
      Node.ofFlow pools spinTable g = .ok [a, b, c] ∧
      Coloring.stack (ColoringRun.ofFlow pools g.analyze.1 [a, b, c]).removals = [c, b] ∧
      Coloring.candidates (ColoringRun.ofFlow pools g.analyze.1 [a, b, c]).removals = [a] :=
    ⟨_, rfl, by decide +kernel, by decide +kernel, by decide +kernel, by decide +kernel⟩
  obtain ⟨result, h⟩ := exists_allocate (a := new pools) hpass
  obtain ⟨_, _, hdistinct, hruns⟩ := simplified_never_spilled
  obtain ⟨nodes, hnodes', _, hregister, hspilled, _⟩ := hruns (.build hg) h (hdistinct _)
  obtain rfl := Except.ok.inj (hnodes.symm.trans hnodes')
  rw [flow_allocate (a := new pools) hnodes] at hregister hspilled
  obtain ⟨r, _, hr⟩ := hregister b (hstack ▸ by simp)
  obtain ⟨q, _, hq⟩ := hregister c (hstack ▸ by simp)
  refine ⟨g, result, hg, h, ⟨r, hr⟩, ⟨q, hq⟩, ?_⟩
  intro v hv
  obtain ⟨n, hn, rfl⟩ := hspilled v hv
  have hna : n = a := List.mem_singleton.mp (hcandidates ▸ hn)
  rw [hna]

end Allocator

end RegisterColoring
