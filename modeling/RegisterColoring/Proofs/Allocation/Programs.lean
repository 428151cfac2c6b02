import RegisterColoring.Proofs.Allocation.Totality
import RegisterColoring.Proofs.Allocation.Verdicts
import RegisterColoring.Proofs.Source.Faults
/-!
# Programs that were read can be allocated

A function of a program that was read mentions only variables of the program's table. Its flow graph
can be built, no phase looks up what is not there, and the only thing that can be missing is a
register of a class that the function needs.
-/
namespace RegisterColoring

/-- What building, analysing and coloring look up is there. -/
structure FlowGraph.WithinBounds (g : FlowGraph) (f : Function) : Prop where
  lines : ∀ b ∈ g.blocks, b.first ≤ b.last ∧ b.last < f.code.length
  analysed : g.analyze.1.InRange
  settled : ∀ id, g.Settled g.analyzeSets.1.blocks id
  rows : ∀ removed : List Nat, (removed.foldl InterferenceGraph.removeNode
    (InterferenceGraph.ofFlow g.analyze.1)).InRange g.vars.size

private theorem FlowGraph.Describes.withinBounds {g : FlowGraph} {f : Function}
    {bounds : List Bounds} (h : g.Describes f bounds) : g.WithinBounds f := by
  refine ⟨?_, h.analyzeSets.inRange_analyzeIntervals, settled_analyzeSets (h.linesOf_lt .use),
    h.inRange_removed⟩
  intro b hb
  exact (h.tiles.of_mem (h.mem_bounds hb)).2

namespace Allocator

private theorem run_of_contains {f : Function} {t : SymbolTable} {g : FlowGraph}
    (hbuild : FlowGraph.build f t = .ok g) (h : ∀ v ∈ f.mentioned, t.contains v = true)
    (a : Allocator) : (∃ result, (a.run f t).2 = .ok result) ∨
      ∃ k, (a.run f t).2 = .error (.emptyPool k) ∧ a.pools.ofClass k = [] ∧
        ∃ i ∈ f.code, ∃ v ∈ i.defs ++ i.uses, ∃ d, t.declaration? v = some d ∧
          RegisterClass.ofType d.type = k := by
  have haccessed : ∀ v ∈ g.vars.toList, ∃ access line, Accesses f.code access line v :=
    fun v hv => FlowGraph.exists_accesses hbuild hv
  have hrun : (a.run f t).2 = (a.allocate g t).result := by rw [run, hbuild]
  have hcontains : ∀ v ∈ g.vars.toList, t.contains v = true := by
    intro v hv
    obtain ⟨access, line, haccess⟩ := haccessed v hv
    exact h v (FlowGraph.mem_mentioned_of_accesses haccess)
  rw [hrun]
  rcases a.allocate_verdict hcontains with ⟨k, hk, herror⟩ | ⟨_, hok⟩
  · obtain ⟨v, hv, hlacks⟩ := List.exists_of_findSome?_eq_some hk
    obtain ⟨d, hd, hclass, hempty⟩ := Pools.lacks?_eq_some.mp hlacks
    obtain ⟨access, line, i, hi, haccess⟩ := haccessed v hv
    exact .inr ⟨k, herror, hempty, i, List.mem_of_getElem? hi, v,
      Instruction.mem_of_accesses haccess, d, hd, hclass⟩
  · exact .inl hok

end Allocator

namespace Source

/-- Reading meets no fault. A function of a program that was read has a flow graph in which no phase
looks up what is not there, and a run over it fails only for want of a register of a class that the
function needs. -/
theorem readProgram_allocates (source : String) :
    (∀ line cause, readProgram source ≠ .error ⟨line, .symbol (.fault cause)⟩) ∧
    ∀ p, readProgram source = .ok p → ∀ f ∈ p.functions, ∃ g,
      FlowGraph.build f p.symbols = .ok g ∧ g.WithinBounds f ∧ ∀ a : Allocator,
        ((∃ result, (a.run f p.symbols).2 = .ok result) ∨
          ∃ k, (a.run f p.symbols).2 = .error (.emptyPool k) ∧ a.pools.ofClass k = [] ∧
            ∃ i ∈ f.code, ∃ v ∈ i.defs ++ i.uses, ∃ d, p.symbols.declaration? v = some d ∧
              RegisterClass.ofType d.type = k) ∧
        (a.pools.general ≠ [] → a.pools.float ≠ [] →
          ∃ result, (a.run f p.symbols).2 = .ok result) := by
  refine ⟨readProgram_ne_fault source, fun p hp f hf => ?_⟩
  have hcontains : ∀ v ∈ f.mentioned, p.symbols.contains v = true :=
    fun v hv => contains_of_mentioned hp hf hv
  obtain ⟨g, hbuild⟩ := FlowGraph.exists_build fun access line v haccess =>
    hcontains v (FlowGraph.mem_mentioned_of_accesses haccess)
  refine ⟨g, hbuild, (FlowGraph.ofBounds_describes hbuild).withinBounds, fun a => ?_⟩
  have hrun := Allocator.run_of_contains hbuild hcontains a
  refine ⟨hrun, fun hgeneral hfloat => ?_⟩
  obtain hok | ⟨k, _, hempty, _⟩ := hrun
  · exact hok
  · cases k with
    | general => exact (hgeneral hempty).elim
    | float => exact (hfloat hempty).elim

/-- A loop in a nested scope, with variables of both classes and one register for each. -/
theorem readProgram_allocates_loop :
    let source :=
      ".var a int\n.func f\n.scope\n.var x float\nL: + x, x, a[a]\nJUMP L\n.endscope\n.endfunc"
    let a := Allocator.new (Pools.standard.take 1 1)
    ∃ p f g, readProgram source = .ok p ∧ f ∈ p.functions ∧ FlowGraph.build f p.symbols = .ok g ∧
      g.WithinBounds f ∧ ∃ result, (a.run f p.symbols).2 = .ok result := by
  intro source a
  have hlength : (readProgram source).map (·.functions.length) = .ok 1 := by decide +kernel
  obtain ⟨p, hp, hlength⟩ := (map_eq_ok_iff _ _ _).mp hlength
  obtain ⟨f, hf⟩ := List.length_pos_iff_exists_mem.mp (Nat.lt_of_lt_of_eq Nat.one_pos hlength.symm)
  obtain ⟨g, hbuild, hbounds, hruns⟩ := (readProgram_allocates source).2 p hp f hf
  exact ⟨p, f, g, hp, hf, hbuild, hbounds, (hruns a).2 (by decide) (by decide)⟩

end Source

end RegisterColoring
