import RegisterColoring.Coloring.Select
import RegisterColoring.Proofs.Coloring.Removals
import RegisterColoring.Proofs.Interference.Graph
import Std.Data.TreeMap.Lemmas

namespace RegisterColoring

def Color.ofChoice : Option Register → Color
  | some r => .register r
  | none => .spilled

theorem Color.ofChoice_eq_spilled {choice : Option Register} :
    ofChoice choice = .spilled ↔ choice = none := by
  cases choice <;> simp [ofChoice]

namespace Coloring

/-- No two neighbours hold the same register. -/
def Proper (g : InterferenceGraph) (colors : Colors) : Prop :=
  ∀ v w r, g.interferes v w = true → colors[v]? = some (.register r) →
    colors[w]? ≠ some (.register r)

private theorem pick?_spec {pools : Pools} {g : InterferenceGraph} {colors : Colors} {n : Node}
    {r : Register} (h : pick? pools g colors n = some r) :
    r ∈ pools.ofClass n.file ∧
      ∀ w, g.interferes n.id w = true → colors[w]? ≠ some (.register r) := by
  refine ⟨List.mem_of_find?_eq_some h, ?_⟩
  intro w hw hcolor
  have hfree := List.find?_some h
  have htaken : taken g colors n.id r = true := by
    rw [taken, List.any_eq_true]
    exact ⟨w, InterferenceGraph.mem_neighbors.mpr hw, by simpa using hcolor⟩
  rw [htaken] at hfree
  cases hfree

theorem exists_holder_of_pick? {pools : Pools} {g : InterferenceGraph} {colors : Colors} {n : Node}
    (h : pick? pools g colors n = none) {r : Register} (hr : r ∈ pools.ofClass n.file) :
    ∃ w, g.interferes n.id w = true ∧ colors[w]? = some (.register r) := by
  have htaken : taken g colors n.id r = true := by
    simpa using List.find?_eq_none.mp h r hr
  obtain ⟨w, hw, hcolor⟩ := List.any_eq_true.mp htaken
  exact ⟨w, InterferenceGraph.mem_neighbors.mp hw, of_decide_eq_true hcolor⟩

theorem getElem?_assign (pools : Pools) (g : InterferenceGraph) (colors : Colors) (n : Node)
    (id : Nat) : (assign pools g colors n)[id]? =
      if n.id = id then some (.ofChoice (pick? pools g colors n)) else colors[id]? := by
  rw [assign, Std.TreeMap.getElem?_insert]
  by_cases h : n.id = id
  · rw [if_pos (Nat.compare_eq_eq.mpr h), if_pos h]
    rfl
  · rw [if_neg (fun he => h (Nat.compare_eq_eq.mp he)), if_neg h]

private theorem pick?_of_assign {pools : Pools} {g : InterferenceGraph} {colors : Colors}
    {n : Node} {r : Register}
    (h : (assign pools g colors n)[n.id]? = some (.register r)) :
    pick? pools g colors n = some r := by
  rw [getElem?_assign, if_pos rfl, Option.some.injEq] at h
  cases hp : pick? pools g colors n with
  | none =>
    rw [hp] at h
    cases h
  | some s =>
    rw [hp] at h
    rw [Color.register.inj h]

/-- A decision for one node makes no conflict. -/
theorem Proper.assign {g : InterferenceGraph}
    (hsymm : ∀ v w, g.interferes v w = true → g.interferes w v = true)
    (hne : ∀ v w, g.interferes v w = true → v ≠ w) {colors : Colors} (h : Proper g colors)
    (pools : Pools) (n : Node) : Proper g (Coloring.assign pools g colors n) := by
  intro v w r hvw hv hw
  -- the node decided now may be either end of the edge; between others nothing changes
  by_cases hnv : n.id = v
  · subst hnv
    obtain ⟨_, hfree⟩ := pick?_spec (pick?_of_assign hv)
    rw [getElem?_assign, if_neg (hne _ _ hvw)] at hw
    exact hfree w hvw hw
  · rw [getElem?_assign, if_neg hnv] at hv
    by_cases hnw : n.id = w
    · subst hnw
      obtain ⟨_, hfree⟩ := pick?_spec (pick?_of_assign hw)
      exact hfree v (hsymm _ _ hvw) hv
    · rw [getElem?_assign, if_neg hnw] at hw
      exact h v w r hvw hv hw

private theorem proper_foldl {g : InterferenceGraph}
    (hsymm : ∀ v w, g.interferes v w = true → g.interferes w v = true)
    (hne : ∀ v w, g.interferes v w = true → v ≠ w) (pools : Pools) (nodes : List Node)
    {colors : Colors} (h : Proper g colors) :
    Proper g (nodes.foldl (Coloring.assign pools g) colors) := by
  induction nodes generalizing colors with
  | nil => exact h
  | cons n nodes ih => exact ih (h.assign hsymm hne pools n)

theorem proper_colors {g : InterferenceGraph}
    (hsymm : ∀ v w, g.interferes v w = true → g.interferes w v = true)
    (hne : ∀ v w, g.interferes v w = true → v ≠ w) (pools : Pools) (removals : List Removal) :
    Proper g (colors pools g removals) := by
  apply proper_foldl hsymm hne
  intro v w r _ hv
  rw [Std.TreeMap.getElem?_emptyc] at hv
  cases hv

theorem foldl_assign_spec (pools : Pools) (g : InterferenceGraph) (nodes : List Node)
    (colors : Colors) :
    (∀ id c, (nodes.foldl (assign pools g) colors)[id]? = some c → colors[id]? = some c ∨
      ∃ n ∈ nodes, n.id = id ∧ ∀ r, c = .register r → r ∈ pools.ofClass n.file) ∧
    ∀ id, (colors[id]?.isSome = true ∨ ∃ n ∈ nodes, n.id = id) →
      (nodes.foldl (assign pools g) colors)[id]?.isSome = true := by
  induction nodes generalizing colors with
  | nil => exact ⟨fun id c h => .inl h, fun id h => by simpa using h⟩
  | cons m nodes ih =>
    obtain ⟨hfrom, hgets⟩ := ih (assign pools g colors m)
    refine ⟨?_, ?_⟩
    · intro id c hc
      rcases hfrom id c hc with h | ⟨n, hn, hid, hpool⟩
      · by_cases hm : m.id = id
        · subst hm
          refine .inr ⟨m, by simp, rfl, ?_⟩
          intro r hr
          rw [hr] at h
          exact (pick?_spec (pick?_of_assign h)).1
        · rw [getElem?_assign, if_neg hm] at h
          exact .inl h
      · exact .inr ⟨n, by simp [hn], hid, hpool⟩
    · intro id h
      apply hgets
      rw [getElem?_assign]
      by_cases hm : m.id = id
      · exact .inl (by simp [hm])
      · rw [if_neg hm]
        rcases h with h | ⟨n, hn, hid⟩
        · exact .inl h
        · rcases List.mem_cons.mp hn with rfl | hn
          · exact absurd hid hm
          · exact .inr ⟨n, hn, hid⟩

theorem perm_decided (removals : List Removal) :
    (stack removals ++ candidates removals).Perm (removals.map Removal.node) := by
  have hsplit := List.filter_append_perm (fun r : Removal => !r.aside) removals
  simp only [Bool.not_not] at hsplit
  rw [stack, candidates]
  exact ((List.reverse_perm _).append_right _).trans (List.map_append ▸ hsplit.map Removal.node)

theorem mem_decided {removals : List Removal} {n : Node} :
    n ∈ stack removals ++ candidates removals ↔ n ∈ removals.map Removal.node :=
  (perm_decided removals).mem_iff

/-- Every removed node gets a decision, and a register is one of its pool. -/
theorem colors_spec (pools : Pools) (g : InterferenceGraph) (removals : List Removal) :
    (∀ n ∈ removals.map Removal.node, (colors pools g removals)[n.id]?.isSome = true) ∧
      ∀ id r, (colors pools g removals)[id]? = some (.register r) →
        ∃ n ∈ removals.map Removal.node, n.id = id ∧ r ∈ pools.ofClass n.file := by
  obtain ⟨hfrom, hgets⟩ :=
    foldl_assign_spec pools g (stack removals ++ candidates removals) ∅
  refine ⟨?_, ?_⟩
  · intro n hn
    exact hgets n.id (.inr ⟨n, mem_decided.mpr hn, rfl⟩)
  · intro id r hr
    rcases hfrom id _ hr with h | ⟨n, hn, hid, hpool⟩
    · rw [Std.TreeMap.getElem?_emptyc] at h
      cases h
    · exact ⟨n, mem_decided.mp hn, hid, hpool r rfl⟩

end Coloring

end RegisterColoring
