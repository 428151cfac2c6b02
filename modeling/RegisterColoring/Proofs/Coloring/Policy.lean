import RegisterColoring.Proofs.Coloring.Colors
import RegisterColoring.Proofs.Coloring.Orderings
import RegisterColoring.Proofs.Interference.Edges
/-!
# The order of removals

Which node simplification removes next depends on the nodes that are left and on the first graph
alone: the lowest one that can do without the others, and if there is none, the lowest of those
with the most neighbours left.
-/
namespace RegisterColoring

namespace InterferenceGraph

private theorem over_empty (size : Nat) : (empty size).Over size := by
  have hnone : ∀ v w, (empty size).interferes v w = false := by simp [interferes, row?_empty]
  constructor <;> simp [hnone]

private theorem Over.addEdge {g : InterferenceGraph} {size : Nat} (h : g.Over size)
    (hsized : g.Sized) {v w : Nat} (hv : v < size) (hw : w < size) : (g.addEdge v w).Over size where
  symm x y hxy := by
    rw [interferes_addEdge hsized] at hxy ⊢
    have := h.symm x y
    tauto
  irrefl x := by
    rw [Bool.eq_false_iff]
    intro hx
    simp only [interferes_addEdge hsized, h.irrefl, Bool.false_eq_true, false_or] at hx
    omega
  lt x y hxy := by
    rw [interferes_addEdge hsized] at hxy
    rcases hxy with hxy | hxy
    · exact h.lt x y hxy
    · omega

private theorem over_ofEdges {size : Nat} {edges : List (Nat × Nat)}
    (hedges : ∀ e ∈ edges, e.1 < size ∧ e.2 < size) {g : InterferenceGraph} (h : g.Over size)
    (hsized : g.Sized) : (edges.foldl (fun g e => g.addEdge e.1 e.2) g).Over size := by
  induction edges generalizing g with
  | nil => exact h
  | cons e edges ih =>
    obtain ⟨he, hedges⟩ := List.forall_mem_cons.mp hedges
    exact ih hedges (h.addEdge hsized he.1 he.2) (hsized.addEdge e.1 e.2)

end InterferenceGraph

namespace Removal

/-- Among the nodes that are left, the node has fewer neighbours than its pool has registers. -/
def Easy (pools : Pools) (g : InterferenceGraph) (left : List Node) (n : Node) : Prop :=
  g.degreeAmong n.id left < (pools.ofClass n.file).length

/-- The removal that is due when the nodes `left` are left. -/
structure Due (pools : Pools) (g : InterferenceGraph) (left : List Node) (r : Removal) : Prop where
  mem : r.node ∈ left
  degree : r.degree = g.degreeAmong r.node.id left
  simplify : (∃ n ∈ left, Easy pools g left n) → r.aside = false ∧ Easy pools g left r.node ∧
    ∀ n ∈ left, Easy pools g left n → r.node.id ≤ n.id
  putAside : (¬ ∃ n ∈ left, Easy pools g left n) → r.aside = true ∧
    (∀ n ∈ left, g.degreeAmong n.id left ≤ g.degreeAmong r.node.id left) ∧
    ∀ n ∈ left, g.degreeAmong n.id left = g.degreeAmong r.node.id left → r.node.id ≤ n.id

variable {pools : Pools} {g work : InterferenceGraph} {left : List Node}

private theorem id_le_of_sorted {before after : List Node} {n m : Node}
    (h : ((before ++ n :: after).map Node.id).Pairwise (· < ·)) (hm : m ∈ before ++ n :: after)
    (hbefore : m ∉ before) : n.id ≤ m.id := by
  simp only [List.map_append, List.map_cons, List.pairwise_append, List.pairwise_cons] at h
  rw [List.mem_append, List.mem_cons] at hm
  rcases hm with hm | rfl | hm
  · exact absurd hm hbefore
  · exact Nat.le_refl _
  · exact Nat.le_of_lt (h.2.1.1 m.id (List.mem_map_of_mem hm))

private theorem due_of_next? (hwork : g.Restricts work left)
    (hsorted : (left.map Node.id).Pairwise (· < ·)) {r : Removal}
    (h : next? pools work left = some r) : Due pools g left r := by
  have hn : (left.map Node.id).Nodup := hsorted.imp Nat.ne_of_lt
  have hdegree : ∀ n ∈ left, work.degree n.id = g.degreeAmong n.id left :=
    fun n hmem => hwork.degree_eq hn hmem
  unfold next? at h
  split at h
  · next n hfind =>
    obtain rfl := Option.some.inj h
    obtain ⟨heasy, before, after, hsplit, hbefore⟩ := List.find?_eq_some_iff_append.mp hfind
    have hmem : n ∈ left := by simp [hsplit]
    rw [decide_eq_true_eq, hdegree n hmem] at heasy
    refine ⟨hmem, hdegree n hmem, fun _ => ⟨rfl, heasy, ?_⟩, fun hnone => ?_⟩
    · intro m hm hm_easy
      have hnot : m ∉ before := by
        intro hm_before
        have := hbefore m hm_before
        simp only [hdegree m hm, Bool.not_eq_true', decide_eq_false_iff_not] at this
        exact this hm_easy
      subst hsplit
      exact id_le_of_sorted hsorted hm hnot
    · exact absurd ⟨n, hmem, heasy⟩ hnone
  · next hfind =>
    obtain ⟨n, hbest, rfl⟩ := Option.map_eq_some_iff.mp h
    obtain ⟨before, after, hsplit, hbefore, hafter⟩ := (mostConstrained?_spec work left).2 n hbest
    have hmem : n ∈ left := by simp [hsplit]
    have hnone : ¬ ∃ m ∈ left, Easy pools g left m := by
      rintro ⟨m, hm, heasy⟩
      have := List.find?_eq_none.mp hfind m hm
      rw [decide_eq_true_eq, hdegree m hm] at this
      exact this heasy
    refine ⟨hmem, hdegree n hmem, fun hsome => absurd hsome hnone, fun _ => ⟨rfl, ?_, ?_⟩⟩
    · intro m hm
      rw [← hdegree m hm, ← hdegree n hmem]
      rw [hsplit, List.mem_append, List.mem_cons] at hm
      rcases hm with hm | rfl | hm
      · exact Nat.le_of_lt (hbefore m hm)
      · exact Nat.le_refl _
      · exact hafter m hm
    · intro m hm heq
      have hnot : m ∉ before := by
        intro hm_before
        have := hbefore m hm_before
        rw [hdegree m hm, hdegree n hmem, heq] at this
        exact Nat.lt_irrefl _ this
      subst hsplit
      exact id_le_of_sorted hsorted hm hnot

private theorem sequence_due (hsymm : ∀ v w, g.interferes v w = true → g.interferes w v = true)
    (count : Nat) (hwork : g.Restricts work left)
    (hsorted : (left.map Node.id).Pairwise (· < ·)) {k : Nat} {r : Removal}
    (hr : (sequence pools count work left)[k]? = some r) :
    Due pools g (left.filter (· ∉ ((sequence pools count work left).take k).map Removal.node))
      r := by
  induction count generalizing work left k with
  | zero => simp [sequence] at hr
  | succ count ih =>
    rw [sequence] at hr ⊢
    split at hr
    · simp at hr
    · next q hq =>
      have hdue := due_of_next? hwork hsorted hq
      cases k with
      | zero =>
        obtain rfl : q = r := by simpa using hr
        simpa using hdue
      | succ k =>
        have hn : (left.map Node.id).Nodup := hsorted.imp Nat.ne_of_lt
        have hrest := ih (hwork.removeNode hsymm hn hdue.mem)
          (hsorted.sublist (List.filter_sublist.map Node.id)) (by simpa using hr)
        simpa [List.filter_filter, Bool.and_comm] using hrest

/-- Simplification removes every node once, into the stack or to the candidates, and always the one
that is due. -/
theorem removals_are_due {size : Nat} (hg : g.Over size) {nodes : List Node}
    (hids : nodes.map Node.id = List.range size) (pools : Pools) :
    let removals := all pools g nodes
    let order := removals.map Removal.node
    order.Perm nodes ∧ (order.map Node.id).Perm (List.range size) ∧
    (Coloring.stack removals ++ Coloring.candidates removals).Perm order ∧
    (Coloring.stack removals).reverse.Sublist order ∧
    (Coloring.candidates removals).Sublist order ∧
    ∀ k r, removals[k]? = some r →
      Due pools g (nodes.filter (· ∉ order.take k)) r ∧
      (r.aside = false → r.node ∈ Coloring.stack removals) ∧
      (r.aside = true → r.node ∈ Coloring.candidates removals) := by
  intro removals order
  have hsorted : (nodes.map Node.id).Pairwise (· < ·) := hids ▸ List.pairwise_lt_range
  have hperm : order.Perm nodes := all_perm pools g (.of_map Node.id (hsorted.imp Nat.ne_of_lt))
  refine ⟨hperm, hids ▸ hperm.map Node.id, Coloring.perm_decided removals, ?_, ?_, ?_⟩
  · rw [Coloring.stack, List.reverse_reverse]
    exact List.filter_sublist.map Removal.node
  · exact List.filter_sublist.map Removal.node
  · intro k r hr
    have hmem := List.mem_of_getElem? hr
    refine ⟨?_, ?_, ?_⟩
    · rw [← List.map_take]
      exact sequence_due hg.symm _ (hg.restricts (.of_eq hids)) hsorted hr
    · intro haside
      simp only [Coloring.stack, List.mem_reverse, List.mem_map, List.mem_filter]
      exact ⟨r, ⟨hmem, by simp [haside]⟩, rfl⟩
    · intro haside
      simp only [Coloring.candidates, List.mem_map, List.mem_filter]
      exact ⟨r, ⟨hmem, haside⟩, rfl⟩

/-- A cycle of four variables and a fifth one without a node, with two registers. The fifth is easy,
and then none is until the lowest has been put aside. -/
theorem cycle_removals_are_due :
    let edges := [(0, 1), (1, 2), (2, 3), (3, 0)]
    let g := edges.foldl (fun g e => g.addEdge e.1 e.2) (InterferenceGraph.empty 5)
    let nodes := (List.range 5).map fun id => (⟨id, ⟨id⟩, .general, 4⟩ : Node)
    let pools := Pools.standard.take 2 0
    let removals := all pools g nodes
    let order := removals.map Removal.node
    removals.map (fun r => (r.node.id, r.aside)) =
      [(4, false), (0, true), (1, false), (2, false), (3, false)] ∧
    (Coloring.candidates removals).map Node.id = [0] ∧
    (order.map Node.id).Perm (List.range 5) ∧
    ∀ k r, removals[k]? = some r → Due pools g (nodes.filter (· ∉ order.take k)) r := by
  intro edges g nodes pools removals order
  have hover : g.Over 5 := InterferenceGraph.over_ofEdges (by decide)
    (InterferenceGraph.over_empty 5) (InterferenceGraph.sized_empty 5)
  have hids : nodes.map Node.id = List.range 5 := by decide
  obtain ⟨_, hperm, _, _, _, hdue⟩ := removals_are_due hover hids pools
  refine ⟨by decide +kernel, by decide +kernel, hperm, ?_⟩
  intro k r hr
  exact (hdue k r hr).1

end Removal

end RegisterColoring
