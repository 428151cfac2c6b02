import RegisterColoring.Proofs.Allocation.Outcome

namespace RegisterColoring

namespace Allocator

private theorem Places.id_eq {a : Allocator} {g : FlowGraph} {t : SymbolTable} {nodes : List Node}
    {placed : List Placement} (h : a.Places g t nodes placed) (hn : g.vars.toList.Nodup)
    {p : Placement} (hp : p ∈ placed) {id : Nat} (hid : g.vars.var? id = some p.node.var) :
    p.node.id = id :=
  Numbering.var?_inj hn (h.lists.var?_id (h.node_mem hp)) hid

theorem registers_differ_of_interferes {f : Function} {s : SymbolTable} {g : FlowGraph}
    (hg : g.Built f s) {a : Allocator} {t : SymbolTable} {result : Allocation}
    (h : (a.allocate g t).result = .ok result) :
    (a.allocate g t).flow = g.analyze.1 ∧
    (∀ i j v w r q, (InterferenceGraph.ofFlow g.analyze.1).interferes i j = true →
      g.vars.var? i = some v → g.vars.var? j = some w →
      result.register? v = some r → result.register? w = some q → r ≠ q) ∧
    ∀ v r, result.register? v = some r → ∃ d, t.declaration? v = some d ∧
      r ∈ a.pools.ofClass (RegisterClass.ofType d.type) := by
  obtain ⟨bounds, hdescribes⟩ := hg.describes
  obtain ⟨nodes, placed, hplaces, hflow, rfl⟩ := exists_places h
  have hnodup := hdescribes.nodup
  refine ⟨hflow, ?_, ?_⟩
  · intro i j v w r q hij hi hj hr hq
    rw [Allocation.register?_eq_some, hplaces.location?_iff hnodup] at hr hq
    obtain ⟨p, hp, rfl, hpr⟩ := hr
    obtain ⟨p', hp', rfl, hpq⟩ := hq
    rw [← hplaces.id_eq hnodup hp hi, ← hplaces.id_eq hnodup hp' hj] at hij
    exact hplaces.register_ne hdescribes.analyze.first_le_last hp hp' hij hpr hpq
  · intro v r hr
    rw [Allocation.register?_eq_some, hplaces.location?_iff hnodup] at hr
    obtain ⟨p, hp, rfl, hpr⟩ := hr
    obtain ⟨d, hd, hfile, _⟩ := hplaces.lists.declared p.node (hplaces.node_mem hp)
    refine ⟨d, hd, ?_⟩
    rw [← hfile]
    exact hplaces.register_mem hp hpr

/-- With two registers for three variables that interfere with each other. -/
theorem spin_registers_differ : ∃ g result,
    FlowGraph.build spin spinTable = .ok g ∧
    ((new (Pools.standard.take 2 0)).allocate g spinTable).result = .ok result ∧
    (InterferenceGraph.ofFlow g.analyze.1).interferes 1 2 = true ∧
    (∀ r q, result.register? ⟨1⟩ = some r → result.register? ⟨2⟩ = some q → r ≠ q) ∧
    ∀ v r, result.register? v = some r → ∃ d, spinTable.declaration? v = some d ∧
      r ∈ (Pools.standard.take 2 0).ofClass (RegisterClass.ofType d.type) := by
  obtain ⟨g, hg, hpass, hij, hvars⟩ : ∃ g, FlowGraph.build spin spinTable = .ok g ∧
      (∀ v ∈ g.vars.toList, Node.Passes (Pools.standard.take 2 0) spinTable v) ∧
      (InterferenceGraph.ofFlow g.analyze.1).interferes 1 2 = true ∧
      g.vars.var? 1 = some ⟨1⟩ ∧ g.vars.var? 2 = some ⟨2⟩ :=
    ⟨_, rfl, by decide +kernel, by decide +kernel, by decide +kernel⟩
  obtain ⟨result, h⟩ := exists_allocate (a := new (Pools.standard.take 2 0)) hpass
  obtain ⟨_, hdiffer, hpools⟩ := registers_differ_of_interferes (.build hg) h
  exact ⟨g, result, hg, h, hij, fun r q => hdiffer 1 2 _ _ r q hij hvars.1 hvars.2, hpools⟩

end Allocator

end RegisterColoring
