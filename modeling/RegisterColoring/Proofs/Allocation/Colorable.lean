import RegisterColoring.Proofs.Allocation.Spills
import RegisterColoring.Proofs.Coloring.Orderings
/-!
# Functions that need no spill

When the variables of a function have an elimination order, no node is put aside and every
variable gets a register. The order is one of variables: how they are numbered plays no part.
-/
namespace RegisterColoring

def Pools.supply (pools : Pools) (t : SymbolTable) (v : Variable) : Nat :=
  ((t.declaration? v).map fun d => (pools.ofClass (RegisterClass.ofType d.type)).length).getD 0

private theorem Pools.passes_of_supply_pos {pools : Pools} {t : SymbolTable} {v : Variable}
    (h : 0 < pools.supply t v) : Node.Passes pools t v := by
  unfold supply at h
  cases hd : t.declaration? v with
  | none => simp [hd] at h
  | some d =>
    simp only [hd, Option.map_some, Option.getD_some] at h
    exact ⟨d, hd, List.ne_nil_of_length_pos h⟩

namespace FlowGraph

def adjacent (g : FlowGraph) (v w : Variable) : Bool :=
  (g.vars.id? v).any fun i => (g.vars.id? w).any fun j =>
    (InterferenceGraph.ofFlow g).interferes i j

private theorem Analysed.over_ofFlow {g : FlowGraph} {f : Function} {bounds : List Bounds}
    (h : g.Analysed f bounds) : (InterferenceGraph.ofFlow g).Over g.vars.size where
  symm _ _ := InterferenceGraph.symm_ofFlow h.first_le_last
  irrefl v := by
    rw [Bool.eq_false_iff]
    intro hv
    exact InterferenceGraph.ne_of_interferes_ofFlow h.first_le_last hv rfl
  lt _ _ := h.interferes_lt

end FlowGraph

namespace Allocator

namespace Places
variable {a : Allocator} {g : FlowGraph} {t : SymbolTable} {nodes : List Node}
  {placed : List Placement}

private theorem perm_ids (h : a.Places g t nodes placed) :
    (nodes.map Node.id).Perm (List.range g.vars.size) :=
  .of_eq h.lists.ids

private theorem exists_eliminates (h : a.Places g t nodes placed) (hn : g.vars.toList.Nodup)
    {order : List Variable} (hperm : order.Perm g.vars.toList)
    (horder : EliminationOrder g.analyze.1.adjacent (a.pools.supply t) order) :
    ∃ order : List Node, order.Perm nodes ∧
      Removal.Eliminates a.pools (InterferenceGraph.ofFlow g.analyze.1) order := by
  rw [← h.lists.vars] at hperm
  have hlift : Relation.Comp (· = List.map Node.var ·) List.Perm order nodes := by
    rw [List.eq_map_comp_perm]
    exact hperm
  obtain ⟨order, rfl, hnodes⟩ := hlift
  have hid : ∀ n ∈ order, g.analyze.1.vars.id? n.var = some n.id := by
    intro n hmem
    exact Numbering.id?_of_var? hn (h.lists.var?_id (hnodes.mem_iff.mp hmem))
  refine ⟨order, hnodes, (EliminationOrder.map_iff ?_ ?_).mp horder⟩
  · intro n hmem m hmem'
    simp [FlowGraph.adjacent, hid n hmem, hid m hmem']
  · intro n hmem
    obtain ⟨d, hd, hfile, _⟩ := h.lists.declared n (hnodes.mem_iff.mp hmem)
    simp [Pools.supply, hd, hfile]

private theorem noSpills_of_eliminates (h : a.Places g t nodes placed) {f : Function}
    {bounds : List Bounds} (hanalysed : g.analyze.1.Analysed f bounds) (hpools : a.pools.Distinct)
    (horder : ∃ order : List Node, order.Perm nodes ∧
      Removal.Eliminates a.pools (InterferenceGraph.ofFlow g.analyze.1) order) :
    (Allocation.ofPlacements placed).noSpills = true := by
  have hnone := (Removal.candidates_eq_nil_iff_eliminates hanalysed.over_ofFlow h.perm_ids
    a.pools).mpr horder
  apply Allocation.noSpills_ofPlacements
  intro p hp
  apply (h.register_or_candidate hanalysed hpools hp).resolve_right
  exact hnone ▸ List.not_mem_nil

end Places

/-- Simplification puts no node aside exactly if an elimination order exists. With pools that
repeat no register, a function whose variables have an elimination order is allocated without any
spill. -/
theorem simplification_complete :
    (∀ {g : InterferenceGraph} {size : Nat} {nodes : List Node}, g.Over size →
      (nodes.map Node.id).Perm (List.range size) → ∀ pools,
      (Coloring.candidates (Removal.all pools g nodes) = [] ↔
        ∃ order, order.Perm nodes ∧ Removal.Eliminates pools g order)) ∧
    ∀ {f : Function} {s : SymbolTable} {g : FlowGraph} {a : Allocator} {t : SymbolTable},
      g.Built f s → a.pools.Distinct →
      (∃ order, order.Perm g.vars.toList ∧
        EliminationOrder g.analyze.1.adjacent (a.pools.supply t) order) →
      ∃ result, (a.allocate g t).result = .ok result ∧ result.noSpills = true := by
  refine ⟨fun hg hn pools => Removal.candidates_eq_nil_iff_eliminates hg hn pools, ?_⟩
  intro f s g a t hg hpools ⟨order, hperm, horder⟩
  -- a variable that an order limits has a declaration and a register to go to
  have hpass : ∀ v ∈ g.vars.toList, Node.Passes a.pools t v := by
    intro v hv
    apply Pools.passes_of_supply_pos
    exact horder.limit_pos (hperm.mem_iff.mpr hv)
  obtain ⟨result, h⟩ := exists_allocate hpass
  refine ⟨result, h, ?_⟩
  obtain ⟨bounds, hdescribes⟩ := hg.describes
  obtain ⟨nodes, placed, hplaces, _, rfl⟩ := exists_places h
  apply hplaces.noSpills_of_eliminates hdescribes.analyze hpools
  exact hplaces.exists_eliminates hdescribes.nodup hperm horder

/-- Three variables that interfere with each other: with three registers any order of them is an
elimination order, with two there is none. -/
theorem spin_simplification_complete :
    let nodes : List Node :=
      [⟨2, ⟨2⟩, .general, 4⟩, ⟨0, ⟨0⟩, .general, 4⟩, ⟨1, ⟨1⟩, .general, 4⟩]
    ∃ g result, FlowGraph.build spin spinTable = .ok g ∧
      (¬ ∃ order : List Node, order.Perm nodes ∧ Removal.Eliminates (Pools.standard.take 2 0)
        (InterferenceGraph.ofFlow g.analyze.1) order) ∧
      ((new (Pools.standard.take 3 0)).allocate g spinTable).result = .ok result ∧
      result.noSpills = true := by
  intro nodes
  let pools := Pools.standard.take 3 0
  obtain ⟨g, hg, hsize, haside, hperm, horder⟩ :
      ∃ g, FlowGraph.build spin spinTable = .ok g ∧ g.vars.size = 3 ∧
      Coloring.candidates (Removal.all (Pools.standard.take 2 0)
        (InterferenceGraph.ofFlow g.analyze.1) nodes) ≠ [] ∧
      [⟨2⟩, ⟨0⟩, ⟨1⟩].Perm g.vars.toList ∧
      EliminationOrder g.analyze.1.adjacent (pools.supply spinTable) [⟨2⟩, ⟨0⟩, ⟨1⟩] :=
    ⟨_, rfl, by decide +kernel, by decide +kernel, by decide +kernel, by decide +kernel⟩
  obtain ⟨bounds, hdescribes⟩ := (FlowGraph.Built.build hg).describes
  obtain ⟨hexact, hruns⟩ := simplification_complete
  have hdistinct : (new pools).pools.Distinct := .take .standard 3 0
  obtain ⟨result, h, hspills⟩ := hruns (.build hg) hdistinct ⟨_, hperm, horder⟩
  refine ⟨g, result, hg, ?_, h, hspills⟩
  rw [← hexact hdescribes.analyze.over_ofFlow (hsize ▸ by decide)]
  exact haside

end Allocator

end RegisterColoring
