import RegisterColoring.Proofs.Allocation.Outcome
import RegisterColoring.Proofs.Live.Runs

namespace RegisterColoring

private theorem FlowGraph.Analysed.interferes_of_carries {g : FlowGraph} {f : Function}
    {bounds : List Bounds} (h : g.Analysed f bounds)
    (hstraight : ∀ b ∈ bounds, Bounds.Straight f.code b) {v w : Variable} {i j : Nat}
    (hi : g.vars.var? i = some v) (hj : g.vars.var? j = some w) {n : Nat} {line : Nat → Nat}
    (hrun : Control.Carries f.code v (n + 1) line) (hdef : Control.Defines f.code (line 0) w) :
    (InterferenceGraph.ofFlow g).interferes i j = true := by
  have haccess := Control.accesses_define.mpr hdef
  obtain ⟨k, b, hb, hline⟩ := h.exists_block_of_lt haccess.lt_length
  have hmem := Array.mem_of_getElem? hb
  have hleave := h.liveLeaving_of_carries hstraight hi hrun hb hline
  have hjdef : j ∈ b.idsAt .define (line 0) := by
    rw [h.mem_idsAt_iff hmem hline hj]
    exact haccess
  have hidef : i ∉ b.idsAt .define (line 0) := by
    rw [h.mem_idsAt_iff hmem hline hi, Control.accesses_define]
    exact hrun.kept 0 (Nat.succ_pos n)
  -- the run does not define its variable on its first line, so the two differ
  have hij : i ≠ j := by
    intro he
    rw [he] at hidef
    exact hidef hjdef
  obtain ⟨before, after, hsplit⟩ := List.append_of_mem hjdef
  have hbefore : i ∉ before := by
    intro hin
    rw [hsplit] at hidef
    exact hidef (List.mem_append_left _ hin)
  rw [InterferenceGraph.interferes_ofFlow h.first_le_last]
  exact ⟨b, hmem, line 0, hline, hij, before, j, after, hsplit, .inr ⟨rfl, hleave, hbefore⟩⟩

/-- A run that carries one variable past a definition of another finds the two in different
places, and in disjoint slots if both are spilled. -/
theorem Allocator.no_clobbering {a : Allocator} {f : Function} {t : SymbolTable}
    {result : Allocation} (h : (a.run f t).2 = .ok result) {v w : Variable} {n : Nat} (hn : 1 ≤ n)
    {line : Nat → Nat} (hrun : Control.Carries f.code v n line)
    (hdef : Control.Defines f.code (line 0) w) :
    result.location? v ≠ result.location? w ∧
      ∀ x y, result.offset? v = some x → result.offset? w = some y →
        ∃ d e, t.declaration? v = some d ∧ t.declaration? w = some e ∧
          ∀ byte, Allocation.InSlot x d.type.size byte →
            ¬ Allocation.InSlot y e.type.size byte := by
  obtain ⟨g, hbuild, hresult⟩ := (a.run_eq_ok_iff f t result).mp h
  have hdescribes : g.Describes f (Bounds.partition f.code) := FlowGraph.ofBounds_describes hbuild
  obtain ⟨nodes, placed, hplaces, _, rfl⟩ := exists_places hresult
  obtain ⟨m, rfl⟩ : ∃ m, n = m + 1 := ⟨n - 1, by omega⟩
  obtain ⟨i, hi⟩ := hdescribes.exists_id (Control.accesses_use.mpr hrun.used)
  obtain ⟨j, hj⟩ := hdescribes.exists_id (Control.accesses_define.mpr hdef)
  obtain ⟨p, hp, rfl, rfl⟩ := hplaces.exists_placement hi
  obtain ⟨q, hq, rfl, rfl⟩ := hplaces.exists_placement hj
  have hinterferes := hdescribes.analyze.interferes_of_carries
    (Bounds.straight_partition f.code) hi hj hrun hdef
  obtain ⟨hne, hapart⟩ :=
    hplaces.location_ne hdescribes.analyze.first_le_last hp hq hinterferes
  have hlocp := (hplaces.location?_iff hdescribes.nodup _ _).mpr ⟨p, hp, rfl, rfl⟩
  have hlocq := (hplaces.location?_iff hdescribes.nodup _ _).mpr ⟨q, hq, rfl, rfl⟩
  refine ⟨?_, ?_⟩
  · rw [hlocp, hlocq]
    exact fun he => hne (Option.some.inj he)
  · intro x y hx hy
    have hnodup := hplaces.nodup hdescribes.nodup
    rw [Allocation.offset?_eq_some hnodup, hlocp, Option.some.injEq] at hx
    rw [Allocation.offset?_eq_some hnodup, hlocq, Option.some.injEq] at hy
    obtain ⟨d, hd, _, hsize⟩ := hplaces.lists.declared p.node (hplaces.node_mem hp)
    obtain ⟨e, he, _, hsize'⟩ := hplaces.lists.declared q.node (hplaces.node_mem hq)
    refine ⟨d, e, hd, he, ?_⟩
    intro byte hbyte hbyte'
    obtain ⟨hle, hlt⟩ := hbyte
    obtain ⟨hle', hlt'⟩ := hbyte'
    have hslots := hapart x y hx hy
    omega

/-- With one register both `a` and `b` are spilled. -/
theorem Allocator.spin_no_clobbering : ∃ result,
    ((new (Pools.standard.take 1 0)).run spin spinTable).2 = .ok result ∧
    Control.Carries spin.code ⟨0⟩ 4 Control.spinTurns ∧
    Control.Defines spin.code (Control.spinTurns 0) ⟨1⟩ ∧
    result.location? ⟨0⟩ ≠ result.location? ⟨1⟩ ∧
    result.offset? ⟨0⟩ = some 0 ∧ result.offset? ⟨1⟩ = some 4 ∧
    ∃ d e, spinTable.declaration? ⟨0⟩ = some d ∧ spinTable.declaration? ⟨1⟩ = some e ∧
      ∀ byte, Allocation.InSlot 0 d.type.size byte → ¬ Allocation.InSlot 4 e.type.size byte := by
  have hdef : Control.Defines spin.code (Control.spinTurns 0) ⟨1⟩ := by decide
  have hoffsets : (((new (Pools.standard.take 1 0)).run spin spinTable).2.toOption.map fun r =>
      (r.offset? ⟨0⟩, r.offset? ⟨1⟩)) = some (some 0, some 4) := by decide +kernel
  cases hresult : ((new (Pools.standard.take 1 0)).run spin spinTable).2 with
  | error e =>
    rw [hresult] at hoffsets
    cases hoffsets
  | ok result =>
    rw [hresult] at hoffsets
    obtain ⟨hx, hy⟩ := Prod.mk.inj (Option.some.inj hoffsets)
    obtain ⟨hne, hslots⟩ := no_clobbering hresult (by decide) Control.spin_carries hdef
    exact ⟨result, rfl, Control.spin_carries, hdef, hne, hx, hy, hslots 0 4 hx hy⟩

end RegisterColoring
