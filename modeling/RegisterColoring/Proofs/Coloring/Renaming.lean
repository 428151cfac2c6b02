import RegisterColoring.Coloring.Select
import RegisterColoring.Proofs.Coloring.Removals
import RegisterColoring.Proofs.Flow.Renaming

namespace RegisterColoring

namespace SymbolTable

def type? (t : SymbolTable) (v : Variable) : Option ValueType := (t.declaration? v).map (·.type)

/-- One table declares `v` and the other one `w`, with the same type. -/
def SameType (S T : SymbolTable) (v w : Variable) : Prop :=
  ∃ d e, S.declaration? v = some d ∧ T.declaration? w = some e ∧ d.type = e.type

theorem SameType.of_contains {S T : SymbolTable} {v w : Variable}
    (h : S.contains v = true ∧ T.contains w = true) (htype : T.type? w = S.type? v) :
    S.SameType T v w := by
  obtain ⟨d, hd⟩ := Option.isSome_iff_exists.mp h.1
  obtain ⟨e, he⟩ := Option.isSome_iff_exists.mp h.2
  rw [type?, type?, hd, he] at htype
  exact ⟨d, e, hd, he, (Option.some.inj htype).symm⟩

theorem SameType.contains {S T : SymbolTable} {v w : Variable} (h : S.SameType T v w) :
    S.contains v = true ∧ T.contains w = true := by
  obtain ⟨d, e, hd, he, _⟩ := h
  simp [SymbolTable.contains, hd, he]

end SymbolTable

namespace Node
variable {m : Variable → Variable}

def rename (m : Variable → Variable) (n : Node) : Node := { n with var := m n.var }

private theorem rename_injective (hm : Function.Injective m) : Function.Injective (rename m) := by
  intro n n' h
  cases n
  cases n'
  simpa [rename, hm.eq_iff] using h

private theorem ofVariable_rename (pools : Pools) {S T : SymbolTable} (function function' : String)
    (id : Nat) {v : Variable} (h : S.SameType T v (m v)) :
    ofVariable pools T function' id (m v) = (ofVariable pools S function id v).map (rename m) := by
  obtain ⟨d, e, hd, he, htype⟩ := h
  simp only [ofVariable, hd, he, htype]
  split <;> rfl

theorem ofFlow_rename (pools : Pools) {S T : SymbolTable} (function : String) {g : FlowGraph}
    (h : ∀ v ∈ g.vars.toList, S.SameType T v (m v)) :
    ofFlow pools T (g.rename m function) = (ofFlow pools S g).map (List.map (rename m)) := by
  have hvars : (g.rename m function).vars.toList.zipIdx =
      g.vars.toList.zipIdx.map fun p => (m p.1, p.2) := by
    rw [FlowGraph.rename, Numbering.toList_rename, List.zipIdx_map]
    rfl
  rw [ofFlow, hvars]
  refine mapM_map_comm _ _ fun p hp => ?_
  exact ofVariable_rename pools g.function function p.2 (h p.1 (List.fst_mem_of_mem_zipIdx hp))

end Node

namespace Removal
variable (m : Variable → Variable)

def rename (r : Removal) : Removal := { r with node := r.node.rename m }

private theorem mostConstrained?_rename (g : InterferenceGraph) (nodes : List Node) :
    mostConstrained? g (nodes.map (Node.rename m)) =
      (mostConstrained? g nodes).map (Node.rename m) := by
  unfold mostConstrained?
  rw [List.foldl_map]
  change nodes.foldl _ (Option.map (Node.rename m) none) = _
  refine List.foldl_hom (Option.map (Node.rename m)) fun best n => ?_
  cases best with
  | none => rfl
  | some b =>
    simp only [Option.map_some]
    rw [apply_ite (Option.map (Node.rename m))]
    rfl

private theorem next?_rename (pools : Pools) (g : InterferenceGraph) (nodes : List Node) :
    next? pools g (nodes.map (Node.rename m)) = (next? pools g nodes).map (rename m) := by
  have hfind : (nodes.map (Node.rename m)).find?
      (fun n => g.degree n.id < (pools.ofClass n.file).length) =
        (nodes.find? fun n => g.degree n.id < (pools.ofClass n.file).length).map
          (Node.rename m) := by
    rw [List.find?_map]
    rfl
  rw [next?, hfind, next?]
  cases nodes.find? fun n => g.degree n.id < (pools.ofClass n.file).length with
  | some n => rfl
  | none =>
    simp only [Option.map_none, mostConstrained?_rename, Option.map_map]
    rfl

variable {m} (hm : Function.Injective m)
include hm

private theorem sequence_rename (pools : Pools) (count : Nat) (g : InterferenceGraph)
    (nodes : List Node) :
    sequence pools count g (nodes.map (Node.rename m)) =
      (sequence pools count g nodes).map (rename m) := by
  induction count generalizing g nodes with
  | zero => rfl
  | succ count ih =>
    rw [sequence, sequence, next?_rename]
    cases next? pools g nodes with
    | none => rfl
    | some r =>
      have hleft : (nodes.map (Node.rename m)).filter (· ≠ (r.rename m).node) =
          (nodes.filter (· ≠ r.node)).map (Node.rename m) := by
        rw [List.filter_map]
        congr 2
        funext n
        simp [rename, (Node.rename_injective hm).eq_iff]
      simp only [Option.map_some, List.map_cons, hleft, ih]
      rfl

theorem all_rename (pools : Pools) (g : InterferenceGraph) (nodes : List Node) :
    all pools g (nodes.map (Node.rename m)) = (all pools g nodes).map (rename m) := by
  rw [all, List.length_map]
  exact sequence_rename hm pools _ g nodes

end Removal

namespace Coloring
variable (m : Variable → Variable) (removals : List Removal)

private theorem stack_rename :
    stack (removals.map (Removal.rename m)) = (stack removals).map (Node.rename m) := by
  simp only [stack, List.filter_map, List.map_map, List.map_reverse]
  rfl

private theorem candidates_rename :
    candidates (removals.map (Removal.rename m)) = (candidates removals).map (Node.rename m) := by
  simp only [candidates, List.filter_map, List.map_map]
  rfl

theorem colors_rename (pools : Pools) (g : InterferenceGraph) :
    colors pools g (removals.map (Removal.rename m)) = colors pools g removals := by
  rw [colors, stack_rename, candidates_rename, ← List.map_append, List.foldl_map]
  rfl

end Coloring

end RegisterColoring
