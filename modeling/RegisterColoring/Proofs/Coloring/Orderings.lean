import RegisterColoring.Coloring.Select
import RegisterColoring.Proofs.Coloring.Degrees
/-!
# Elimination orders

If the nodes can be taken away in some order so that each has few enough neighbours left,
simplification takes away all of them, although it never looks ahead: whatever it has removed,
the first node of the order that is left still has few enough neighbours.
-/
namespace RegisterColoring

/-- Each member of the list has fewer neighbours among those after it than its limit. -/
def EliminationOrder {α : Type} (adjacent : α → α → Bool) (limit : α → Nat) : List α → Prop
  | [] => True
  | v :: later => later.countP (adjacent v) < limit v ∧ EliminationOrder adjacent limit later

namespace EliminationOrder

instance decidable {α : Type} (adjacent : α → α → Bool) (limit : α → Nat) :
    DecidablePred (EliminationOrder adjacent limit)
  | [] => isTrue trivial
  | _ :: later => @instDecidableAnd _ _ _ (decidable adjacent limit later)

variable {α β : Type} {adjacent : α → α → Bool} {limit : α → Nat}

private theorem sublist {order rest : List α} (hsub : rest.Sublist order)
    (h : EliminationOrder adjacent limit order) : EliminationOrder adjacent limit rest := by
  induction hsub with
  | slnil => exact h
  | cons v _ ih => exact ih h.2
  | cons_cons v hsub ih => exact ⟨Nat.lt_of_le_of_lt hsub.countP_le h.1, ih h.2⟩

theorem limit_pos {order : List α} (h : EliminationOrder adjacent limit order) {v : α}
    (hv : v ∈ order) : 0 < limit v := by
  induction order with
  | nil => cases hv
  | cons w later ih =>
    rcases List.mem_cons.mp hv with rfl | hlater
    · exact Nat.zero_lt_of_lt h.1
    · exact ih h.2 hlater

theorem map_iff {adjacent' : β → β → Bool} {limit' : β → Nat} {f : α → β} {order : List α}
    (hadjacent : ∀ v ∈ order, ∀ w ∈ order, adjacent' (f v) (f w) = adjacent v w)
    (hlimit : ∀ v ∈ order, limit' (f v) = limit v) :
    EliminationOrder adjacent' limit' (order.map f) ↔ EliminationOrder adjacent limit order := by
  induction order with
  | nil => exact Iff.rfl
  | cons v later ih =>
    have hcount : (later.map f).countP (adjacent' (f v)) = later.countP (adjacent v) := by
      rw [List.countP_map]
      apply List.countP_congr
      intro w hw
      simp [hadjacent v (by simp) w (by simp [hw])]
    have hrest := ih (fun w hw u hu => hadjacent w (by simp [hw]) u (by simp [hu]))
      (fun w hw => hlimit w (by simp [hw]))
    simp only [List.map_cons, EliminationOrder, hcount, hlimit v (by simp), hrest]

end EliminationOrder

namespace InterferenceGraph

/-- An undirected graph without loops over the variables below `size`. -/
structure Over (g : InterferenceGraph) (size : Nat) : Prop where
  symm : ∀ v w, g.interferes v w = true → g.interferes w v = true
  irrefl : ∀ v, g.interferes v v = false
  lt : ∀ v w, g.interferes v w = true → w < size

theorem Over.restricts {g : InterferenceGraph} {size : Nat} (h : g.Over size) {nodes : List Node}
    (hn : (nodes.map Node.id).Perm (List.range size)) : g.Restricts g nodes := by
  intro v w
  simp only [hn.mem_iff, List.mem_range]
  exact ⟨fun hvw => ⟨hvw, h.lt w v (h.symm v w hvw), h.lt v w hvw⟩, And.left⟩

end InterferenceGraph

namespace Removal

def Eliminates (pools : Pools) (g : InterferenceGraph) (order : List Node) : Prop :=
  EliminationOrder (fun n m => g.interferes n.id m.id)
    (fun n => (pools.ofClass n.file).length) order

private theorem aside_eq_false_of_degree_lt {pools : Pools} {work : InterferenceGraph}
    {nodes : List Node} {n : Node} (hn : n ∈ nodes)
    (hlt : work.degree n.id < (pools.ofClass n.file).length) {r : Removal}
    (h : next? pools work nodes = some r) : r.aside = false := by
  unfold next? at h
  split at h
  · rw [← Option.some.inj h]
  · next hnone =>
    have hge := List.find?_eq_none.mp hnone n hn
    simp [hlt] at hge

section Greedy
variable {pools : Pools} {g : InterferenceGraph} (hirrefl : ∀ v, g.interferes v v = false)
include hirrefl

/-- While an elimination order of the nodes that are left exists, no node is put aside. -/
theorem next?_of_eliminates {work : InterferenceGraph} {nodes order : List Node}
    (hwork : g.Restricts work nodes) (hn : (nodes.map Node.id).Nodup) (hperm : order.Perm nodes)
    (horder : Eliminates pools g order) {r : Removal} (h : next? pools work nodes = some r) :
    r.aside = false := by
  have hmem := (next?_spec pools work nodes).1 r h
  cases order with
  | nil =>
    rw [hperm.symm.eq_nil] at hmem
    cases hmem
  | cons n later =>
    have hleft : n ∈ nodes := hperm.mem_iff.mp (by simp)
    apply aside_eq_false_of_degree_lt hleft _ h
    calc work.degree n.id
        = g.degreeAmong n.id nodes := hwork.degree_eq hn hleft
      _ = g.degreeAmong n.id (n :: later) := (hperm.countP_eq _).symm
      _ = g.degreeAmong n.id later := by simp [InterferenceGraph.degreeAmong, hirrefl]
      _ < (pools.ofClass n.file).length := horder.1

private theorem sequence_of_eliminates
    (hsymm : ∀ v w, g.interferes v w = true → g.interferes w v = true) (count : Nat)
    {work : InterferenceGraph} {nodes order : List Node} (hwork : g.Restricts work nodes)
    (hn : (nodes.map Node.id).Nodup) (hperm : order.Perm nodes)
    (horder : Eliminates pools g order) :
    ∀ r ∈ sequence pools count work nodes, r.aside = false := by
  induction count generalizing work nodes order with
  | zero => simp [sequence]
  | succ count ih =>
    rw [sequence]
    split
    · simp
    · next r hr =>
      have hmem := (next?_spec pools work nodes).1 r hr
      have hids : ((nodes.filter (· ≠ r.node)).map Node.id).Nodup :=
        hn.sublist (List.filter_sublist.map Node.id)
      -- what is left of the order is an order of what is left
      have hrest := ih (hwork.removeNode hsymm hn hmem) hids (hperm.filter _)
        (EliminationOrder.sublist List.filter_sublist horder)
      simp only [List.mem_cons, forall_eq_or_imp]
      exact ⟨next?_of_eliminates hirrefl hwork hn hperm horder hr, hrest⟩

end Greedy

private theorem eliminates_of_eased {pools : Pools} {g : InterferenceGraph}
    {removals : List Removal} (h : Eased pools g removals)
    (hnone : ∀ r ∈ removals, r.aside = false) :
    Eliminates pools g (removals.map Removal.node) := by
  induction removals with
  | nil => trivial
  | cons r later ih =>
    exact ⟨h.1 (hnone r (by simp)), ih h.2 fun q hq => hnone q (by simp [hq])⟩

end Removal

private theorem Coloring.candidates_eq_nil {removals : List Removal} :
    candidates removals = [] ↔ ∀ r ∈ removals, r.aside = false := by
  simp [candidates]

/-- Simplification puts no node aside exactly if the nodes have an elimination order, in
whatever order it goes through them. -/
theorem Removal.candidates_eq_nil_iff_eliminates {g : InterferenceGraph} {size : Nat}
    (hg : g.Over size) {nodes : List Node} (hn : (nodes.map Node.id).Perm (List.range size))
    (pools : Pools) : Coloring.candidates (all pools g nodes) = [] ↔
      ∃ order, order.Perm nodes ∧ Eliminates pools g order := by
  have hids : (nodes.map Node.id).Nodup := hn.nodup_iff.mpr List.nodup_range
  rw [Coloring.candidates_eq_nil]
  constructor
  · intro hnone
    have hends : ∀ v w, g.interferes v w = true → w ∈ nodes.map Node.id := by
      intro v w hvw
      rw [hn.mem_iff, List.mem_range]
      exact hg.lt v w hvw
    have heased := all_eased pools hg.symm hends hids
    exact ⟨_, all_perm pools g (.of_map Node.id hids), eliminates_of_eased heased hnone⟩
  · rintro ⟨order, hperm, horder⟩
    exact sequence_of_eliminates hg.irrefl hg.symm _ (hg.restricts hn) hids hperm horder

end RegisterColoring
