import RegisterColoring.Coloring.Simplify
import RegisterColoring.Proofs.Flow.Built
import RegisterColoring.Proofs.Sequence
import Mathlib.Data.List.Perm.Basic

namespace RegisterColoring

namespace Node

/-- A variable passes if it is declared and there are registers for its type. -/
def Passes (pools : Pools) (t : SymbolTable) (v : Variable) : Prop :=
  ∃ d, t.declaration? v = some d ∧ pools.ofClass (RegisterClass.ofType d.type) ≠ []

instance (pools : Pools) (t : SymbolTable) (v : Variable) : Decidable (Passes pools t v) :=
  decidable_of_iff
    ((t.declaration? v).any fun d => pools.ofClass (RegisterClass.ofType d.type) ≠ []) (by
      simp [Passes, Option.any_eq_true])

theorem ofVariable_eq_ok_iff (pools : Pools) (t : SymbolTable) (function : String) (id : Nat)
    (v : Variable) (n : Node) : ofVariable pools t function id v = .ok n ↔
      ∃ d, t.declaration? v = some d ∧ pools.ofClass (RegisterClass.ofType d.type) ≠ [] ∧
        n = ⟨id, v, RegisterClass.ofType d.type, d.type.size⟩ := by
  unfold ofVariable
  cases t.declaration? v with
  | none => simp
  | some d =>
    by_cases hempty : (pools.ofClass (RegisterClass.ofType d.type)).isEmpty = true
    · have hnil := List.isEmpty_iff.mp hempty
      simp [hnil]
    · have hne : pools.ofClass (RegisterClass.ofType d.type) ≠ [] :=
        fun h => hempty (List.isEmpty_iff.mpr h)
      simp only [hempty, Bool.false_eq_true, if_false, Except.ok.injEq, Option.some.injEq]
      constructor
      · intro h
        exact ⟨d, rfl, hne, h.symm⟩
      · intro h
        obtain ⟨d', rfl, _, rfl⟩ := h
        rfl

/-- The nodes of a flow graph in the order of their identifiers. -/
def ofFlow (pools : Pools) (t : SymbolTable) (g : FlowGraph) : Except AllocError (List Node) :=
  g.vars.toList.zipIdx.mapM fun p => ofVariable pools t g.function p.2 p.1

/-- The nodes of a graph: one for each variable, in order, with what the table says about it. -/
structure Lists (t : SymbolTable) (g : FlowGraph) (nodes : List Node) : Prop where
  ids : nodes.map Node.id = List.range g.vars.size
  vars : nodes.map Node.var = g.vars.toList
  declared : ∀ n ∈ nodes, ∃ d, t.declaration? n.var = some d ∧
    n.file = RegisterClass.ofType d.type ∧ n.size = d.type.size

private theorem forall₂_ofFlow {pools : Pools} {t : SymbolTable} {g : FlowGraph}
    {nodes : List Node} (h : ofFlow pools t g = .ok nodes) :
    List.Forall₂ (fun p n => ∃ d, t.declaration? p.1 = some d ∧
      n = ⟨p.2, p.1, RegisterClass.ofType d.type, d.type.size⟩) g.vars.toList.zipIdx nodes := by
  refine ((mapM_eq_ok_iff _ _ _).mp h).imp ?_
  intro p n hn
  obtain ⟨d, hd, _, rfl⟩ := (ofVariable_eq_ok_iff _ _ _ _ _ _).mp hn
  exact ⟨d, hd, rfl⟩

theorem ofFlow_lists {pools : Pools} {t : SymbolTable} {g : FlowGraph} {nodes : List Node}
    (h : ofFlow pools t g = .ok nodes) : Lists t g nodes := by
  have hall := forall₂_ofFlow h
  have hids : List.Forall₂ (fun (p : Variable × Nat) (n : Node) => p.2 = n.id)
      g.vars.toList.zipIdx nodes := by
    refine hall.imp ?_
    intro p n hn
    obtain ⟨d, _, rfl⟩ := hn
    rfl
  have hvars : List.Forall₂ (fun (p : Variable × Nat) (n : Node) => p.1 = n.var)
      g.vars.toList.zipIdx nodes := by
    refine hall.imp ?_
    intro p n hn
    obtain ⟨d, _, rfl⟩ := hn
    rfl
  rw [← List.forall₂_map_right_iff, ← List.forall₂_map_left_iff,
    List.forall₂_eq_eq_eq] at hids hvars
  refine ⟨?_, ?_, ?_⟩
  · rw [← hids, List.zipIdx_map_snd, List.range_eq_range']
    rfl
  · rw [← hvars, List.zipIdx_map_fst]
  · intro n hn
    obtain ⟨k, hk, rfl⟩ := List.mem_iff_getElem.mp hn
    obtain ⟨d, hd, he⟩ := hall.get (hall.length_eq ▸ hk) hk
    rw [List.get_eq_getElem, List.get_eq_getElem] at he
    rw [he]
    exact ⟨d, hd, rfl, rfl⟩

theorem exists_ofFlow_iff (pools : Pools) (t : SymbolTable) (g : FlowGraph) :
    (∃ nodes, ofFlow pools t g = .ok nodes) ↔ ∀ v ∈ g.vars.toList, Passes pools t v := by
  constructor
  · intro h v hv
    obtain ⟨nodes, hnodes⟩ := h
    have hall := (mapM_eq_ok_iff _ _ _).mp hnodes
    obtain ⟨k, hk, rfl⟩ := List.mem_iff_getElem.mp hv
    have hk' : k < g.vars.toList.zipIdx.length := by simpa using hk
    have hget := hall.get hk' (hall.length_eq ▸ hk')
    obtain ⟨d, hd, hne, _⟩ := (ofVariable_eq_ok_iff _ _ _ _ _ _).mp hget
    simp only [List.get_eq_getElem, List.getElem_zipIdx] at hd
    exact ⟨d, hd, hne⟩
  · intro h
    apply exists_mapM_eq_ok
    intro p hp
    obtain ⟨d, hd, hne⟩ := h p.1 (List.fst_mem_of_mem_zipIdx hp)
    exact ⟨_, (ofVariable_eq_ok_iff _ _ _ _ _ _).mpr ⟨d, hd, hne, rfl⟩⟩

namespace Lists
variable {t : SymbolTable} {g : FlowGraph} {nodes : List Node}

theorem nodup (h : Lists t g nodes) : nodes.Nodup :=
  List.Nodup.of_map Node.id (h.ids ▸ List.nodup_range)

theorem length_eq (h : Lists t g nodes) : nodes.length = g.vars.size := by
  rw [← List.length_map Node.id, h.ids, List.length_range]

theorem getElem? (h : Lists t g nodes) {k : Nat} {n : Node} (hn : nodes[k]? = some n) :
    n.id = k ∧ g.vars.toList[k]? = some n.var := by
  constructor
  · have hid : (List.range g.vars.size)[k]? = some n.id := by
      rw [← h.ids, List.getElem?_map, hn, Option.map_some]
    obtain ⟨_, he⟩ := List.getElem?_eq_some_iff.mp hid
    rw [← he, List.getElem_range]
  · rw [← h.vars, List.getElem?_map, hn, Option.map_some]

theorem var?_id (h : Lists t g nodes) {n : Node} (hn : n ∈ nodes) :
    g.vars.var? n.id = some n.var := by
  obtain ⟨k, hk⟩ := List.mem_iff_getElem?.mp hn
  obtain ⟨hid, hvar⟩ := h.getElem? hk
  rw [hid, ← Numbering.getElem?_toList, hvar]

theorem exists_node (h : Lists t g nodes) {id : Nat} (hid : id < g.vars.size) :
    ∃ n ∈ nodes, n.id = id := by
  have hmem : id ∈ nodes.map Node.id := by
    rw [h.ids]
    exact List.mem_range.mpr hid
  exact List.mem_map.mp hmem

end Lists

end Node

namespace Removal

private def better (g : InterferenceGraph) (best : Option Node) (n : Node) : Option Node :=
  match best with
  | some b => if g.degree n.id ≤ g.degree b.id then some b else some n
  | none => some n

private theorem mostConstrained?_concat (g : InterferenceGraph) (nodes : List Node) (m : Node) :
    mostConstrained? g (nodes ++ [m]) = better g (mostConstrained? g nodes) m :=
  List.foldl_append

/-- There is a most constrained node unless there is none at all. No node before it has as many
neighbours, and no node after it has more. -/
theorem mostConstrained?_spec (g : InterferenceGraph) (nodes : List Node) :
    (mostConstrained? g nodes = none → nodes = []) ∧
    ∀ n, mostConstrained? g nodes = some n → ∃ before after, nodes = before ++ n :: after ∧
      (∀ m ∈ before, g.degree m.id < g.degree n.id) ∧
      ∀ m ∈ after, g.degree m.id ≤ g.degree n.id := by
  -- the fold has seen the nodes up to the last one
  induction nodes using List.reverseRecOn with
  | nil => simp [mostConstrained?]
  | append_singleton nodes m ih =>
    rw [mostConstrained?_concat]
    cases hbest : mostConstrained? g nodes with
    | none =>
      rw [ih.1 hbest, better]
      refine ⟨by simp, ?_⟩
      intro n hn
      obtain rfl := Option.some.inj hn
      exact ⟨[], [], rfl, by simp, by simp⟩
    | some b =>
      obtain ⟨before, after, hnodes, hbefore, hafter⟩ := ih.2 b hbest
      by_cases hle : g.degree m.id ≤ g.degree b.id
      · rw [better, if_pos hle]
        refine ⟨by simp, ?_⟩
        intro n hn
        obtain rfl := Option.some.inj hn
        refine ⟨before, after ++ [m], by simp [hnodes], hbefore, ?_⟩
        simpa [or_imp, forall_and, hle] using hafter
      · rw [better, if_neg hle]
        refine ⟨by simp, ?_⟩
        intro n hn
        obtain rfl := Option.some.inj hn
        refine ⟨nodes, [], rfl, ?_, by simp⟩
        intro q hq
        rw [hnodes, List.mem_append, List.mem_cons] at hq
        rcases hq with hq | rfl | hq
        · have := hbefore q hq
          omega
        · omega
        · have := hafter q hq
          omega

theorem next?_spec (pools : Pools) (g : InterferenceGraph) (nodes : List Node) :
    (∀ r, next? pools g nodes = some r → r.node ∈ nodes) ∧
      (next? pools g nodes = none → nodes = []) := by
  obtain ⟨hnone, hmem⟩ := mostConstrained?_spec g nodes
  unfold next?
  split
  · next n hn =>
    refine ⟨?_, ?_⟩
    · intro r hr
      obtain rfl := Option.some.inj hr
      exact List.mem_of_find?_eq_some hn
    · intro h
      cases h
  · refine ⟨?_, ?_⟩
    · intro r hr
      obtain ⟨n, hn, rfl⟩ := Option.map_eq_some_iff.mp hr
      obtain ⟨before, after, rfl, _⟩ := hmem n hn
      simp
    · intro h
      exact hnone (Option.map_eq_none_iff.mp h)

private theorem filter_ne_eq_erase {nodes : List Node} (hn : nodes.Nodup) (n : Node) :
    nodes.filter (· ≠ n) = nodes.erase n := by
  rw [hn.erase_eq_filter]
  apply List.filter_congr
  intro m _
  by_cases he : m = n <;> simp [he]

theorem length_filter_ne {nodes : List Node} (hn : nodes.Nodup) {n : Node} (h : n ∈ nodes)
    {count : Nat} (hlen : nodes.length = count + 1) : (nodes.filter (· ≠ n)).length = count := by
  rw [filter_ne_eq_erase hn, List.length_erase_of_mem h, hlen, Nat.add_sub_cancel]

theorem sequence_perm (pools : Pools) (count : Nat) (g : InterferenceGraph) (nodes : List Node)
    (hn : nodes.Nodup) (hlen : nodes.length = count) :
    ((sequence pools count g nodes).map Removal.node).Perm nodes := by
  induction count generalizing g nodes with
  | zero =>
    rw [List.length_eq_zero_iff.mp hlen]
    exact .refl _
  | succ count ih =>
    obtain ⟨hmem, hnone⟩ := next?_spec pools g nodes
    rw [sequence]
    split
    · next h =>
      rw [hnone h]
      exact .refl _
    · next r hr =>
      have hr' := hmem r hr
      have hperm := ih (g.removeNode r.node.id) _ (hn.filter _) (length_filter_ne hn hr' hlen)
      rw [filter_ne_eq_erase hn] at hperm ⊢
      exact (hperm.cons r.node).trans (List.perm_cons_erase hr').symm

theorem all_perm (pools : Pools) (g : InterferenceGraph) {nodes : List Node} (hn : nodes.Nodup) :
    ((all pools g nodes).map Removal.node).Perm nodes :=
  sequence_perm pools nodes.length g nodes hn rfl

end Removal

end RegisterColoring
