import RegisterColoring.Proofs.Coloring.Removals
import RegisterColoring.Proofs.Interference.Graph
/-!
# Degrees during simplification

The graph that shrinks while nodes are removed keeps the edges between the nodes that are left,
so its degrees are counts in the first graph. A simplified node has fewer neighbours among the
nodes removed after it than registers to choose from.
-/
namespace RegisterColoring

namespace InterferenceGraph

def degreeAmong (g : InterferenceGraph) (v : Nat) (nodes : List Node) : Nat :=
  nodes.countP fun m => g.interferes v m.id

/-- The edges of `work` are those of `g` between the nodes. -/
def Restricts (g work : InterferenceGraph) (nodes : List Node) : Prop :=
  ∀ x y, work.interferes x y = true ↔
    g.interferes x y = true ∧ x ∈ nodes.map Node.id ∧ y ∈ nodes.map Node.id

namespace Restricts
variable {g work : InterferenceGraph} {nodes : List Node} {n : Node}

theorem degree_eq (h : g.Restricts work nodes) (hn : (nodes.map Node.id).Nodup)
    (hmem : n ∈ nodes) : work.degree n.id = g.degreeAmong n.id nodes := by
  have hids : n.id ∈ nodes.map Node.id := List.mem_map_of_mem hmem
  have hperm : (work.neighbors n.id).Perm ((nodes.map Node.id).filter (g.interferes n.id)) := by
    rw [List.perm_ext_iff_of_nodup (work.nodup_neighbors n.id) (hn.filter _)]
    intro w
    rw [mem_neighbors, h n.id w, List.mem_filter]
    simp only [hids, true_and, and_comm]
  rw [degree, hperm.length_eq, ← List.countP_eq_length_filter, List.countP_map]
  rfl

private theorem mem_ids_filter_ne (hn : (nodes.map Node.id).Nodup) (hmem : n ∈ nodes) (x : Nat) :
    x ∈ (nodes.filter (· ≠ n)).map Node.id ↔ x ∈ nodes.map Node.id ∧ x ≠ n.id := by
  simp only [List.mem_map, List.mem_filter, decide_eq_true_eq]
  constructor
  · rintro ⟨m, ⟨hm, hne⟩, rfl⟩
    exact ⟨⟨m, hm, rfl⟩, fun he => hne (List.inj_on_of_nodup_map hn hm hmem he)⟩
  · rintro ⟨⟨m, hm, rfl⟩, hne⟩
    exact ⟨m, ⟨hm, fun he => hne (he ▸ rfl)⟩, rfl⟩

theorem removeNode (h : g.Restricts work nodes)
    (hsymm : ∀ x y, g.interferes x y = true → g.interferes y x = true)
    (hn : (nodes.map Node.id).Nodup) (hmem : n ∈ nodes) :
    g.Restricts (work.removeNode n.id) (nodes.filter (· ≠ n)) := by
  have hwork : ∀ x y, work.interferes x y = true → work.interferes y x = true := by
    intro x y hxy
    rw [h x y] at hxy
    exact (h y x).mpr ⟨hsymm x y hxy.1, hxy.2.2, hxy.2.1⟩
  intro x y
  rw [interferes_removeNode hwork, h x y, mem_ids_filter_ne hn hmem, mem_ids_filter_ne hn hmem]
  tauto

end Restricts

end InterferenceGraph

namespace Removal

/-- Each simplified node has fewer neighbours among the nodes removed after it than registers to
choose from. -/
def Eased (pools : Pools) (g : InterferenceGraph) : List Removal → Prop
  | [] => True
  | r :: later =>
    (r.aside = false →
      g.degreeAmong r.node.id (later.map Removal.node) < (pools.ofClass r.node.file).length) ∧
    Eased pools g later

private theorem degree_lt_of_next? {pools : Pools} {work : InterferenceGraph} {nodes : List Node}
    {r : Removal} (h : next? pools work nodes = some r) (haside : r.aside = false) :
    work.degree r.node.id < (pools.ofClass r.node.file).length := by
  unfold next? at h
  split at h
  · next n hn =>
    have hlt := List.find?_some hn
    rw [← Option.some.inj h]
    exact of_decide_eq_true hlt
  · obtain ⟨n, _, rfl⟩ := Option.map_eq_some_iff.mp h
    cases haside

private theorem sequence_eased (pools : Pools) {g : InterferenceGraph}
    (hsymm : ∀ x y, g.interferes x y = true → g.interferes y x = true) (count : Nat)
    {work : InterferenceGraph} {nodes : List Node} (h : g.Restricts work nodes)
    (hn : (nodes.map Node.id).Nodup) (hlen : nodes.length = count) :
    Eased pools g (sequence pools count work nodes) := by
  induction count generalizing work nodes with
  | zero => trivial
  | succ count ih =>
    rw [sequence]
    split
    · trivial
    · next r hr =>
      have hmem := (next?_spec pools work nodes).1 r hr
      have hnodup := List.Nodup.of_map Node.id hn
      have hlen' := length_filter_ne hnodup hmem hlen
      have hids : ((nodes.filter (· ≠ r.node)).map Node.id).Nodup :=
        hn.sublist (List.filter_sublist.map Node.id)
      refine ⟨?_, ih (h.removeNode hsymm hn hmem) hids hlen'⟩
      intro haside
      have hperm := sequence_perm pools count (work.removeNode r.node.id) _ (hnodup.filter _) hlen'
      calc g.degreeAmong r.node.id _
          = g.degreeAmong r.node.id (nodes.filter (· ≠ r.node)) := hperm.countP_eq _
        _ ≤ g.degreeAmong r.node.id nodes := List.filter_sublist.countP_le
        _ = work.degree r.node.id := (h.degree_eq hn hmem).symm
        _ < (pools.ofClass r.node.file).length := degree_lt_of_next? hr haside

theorem all_eased (pools : Pools) {g : InterferenceGraph} {nodes : List Node}
    (hsymm : ∀ x y, g.interferes x y = true → g.interferes y x = true)
    (hends : ∀ x y, g.interferes x y = true → y ∈ nodes.map Node.id)
    (hn : (nodes.map Node.id).Nodup) : Eased pools g (all pools g nodes) := by
  apply sequence_eased pools hsymm nodes.length _ hn rfl
  intro x y
  constructor
  · intro hxy
    exact ⟨hxy, hends y x (hsymm x y hxy), hends x y hxy⟩
  · exact And.left

end Removal

end RegisterColoring
