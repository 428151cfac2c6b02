import RegisterColoring.Proofs.Coloring.Colors
import RegisterColoring.Proofs.Coloring.Degrees
/-!
# Simplified nodes get a register

When a simplified node is decided, only nodes removed after it have a register. Fewer of them
are its neighbours than there are registers in its pool, so one that none of them holds is left.
-/
namespace RegisterColoring

/-- Neither pool holds a register twice. The two may share registers. -/
structure Pools.Distinct (p : Pools) : Prop where
  general : p.general.Nodup
  float : p.float.Nodup

namespace Pools.Distinct
variable {p : Pools}

private theorem ofClass (h : p.Distinct) (file : RegisterClass) : (p.ofClass file).Nodup := by
  cases file with
  | general => exact h.general
  | float => exact h.float

theorem standard : Pools.standard.Distinct := ⟨by decide, by decide⟩

theorem take (h : p.Distinct) (general float : Nat) : (p.take general float).Distinct :=
  ⟨h.general.sublist (List.take_sublist _ _), h.float.sublist (List.take_sublist _ _)⟩

end Pools.Distinct

def Color.register? : Color → Option Register
  | .register r => some r
  | .spilled => none

namespace Coloring
variable {pools : Pools} {g : InterferenceGraph}

/-- A node finds a register if its pool has more of them than it has neighbours among the nodes
that may be colored. -/
theorem exists_pick? {colors : Colors} {n : Node} {nodes : List Node}
    (hpool : (pools.ofClass n.file).Nodup)
    (hcolored : ∀ id c, colors[id]? = some c → id ∈ nodes.map Node.id)
    (hlt : g.degreeAmong n.id nodes < (pools.ofClass n.file).length) :
    ∃ r, pick? pools g colors n = some r := by
  cases hpick : pick? pools g colors n with
  | some r => exact ⟨r, rfl⟩
  | none =>
    let rivals := nodes.filter fun m => g.interferes n.id m.id
    -- every register of the pool is held by some rival
    have hsubset : pools.ofClass n.file ⊆
        rivals.filterMap fun m => colors[m.id]?.bind Color.register? := by
      intro r hr
      obtain ⟨w, hw, hcolor⟩ := exists_holder_of_pick? hpick hr
      obtain ⟨m, hm, rfl⟩ := List.mem_map.mp (hcolored w _ hcolor)
      have hrival : m ∈ rivals := List.mem_filter.mpr ⟨hm, hw⟩
      exact List.mem_filterMap.mpr ⟨m, hrival, by simp [hcolor, Color.register?]⟩
    have hle := (List.subperm_of_subset hpool hsubset).length_le
    have hheld := List.length_filterMap_le (fun m => colors[m.id]?.bind Color.register?) rivals
    have hcount : g.degreeAmong n.id nodes = rivals.length := List.countP_eq_length_filter
    omega

/-- The decisions before the nodes put aside are tried. -/
def selected (pools : Pools) (g : InterferenceGraph) (removals : List Removal) : Colors :=
  (stack removals).foldl (assign pools g) ∅

private theorem mem_ids_of_selected {removals : List Removal} {id : Nat} {c : Color}
    (h : (selected pools g removals)[id]? = some c) :
    id ∈ (removals.map Removal.node).map Node.id := by
  rcases (foldl_assign_spec pools g (stack removals) ∅).1 id c h with h | ⟨n, hn, rfl, _⟩
  · rw [Std.TreeMap.getElem?_emptyc] at h
    cases h
  · exact List.mem_map_of_mem (mem_decided.mp (List.mem_append_left _ hn))

private theorem stack_cons_aside {r : Removal} (h : r.aside = true) (later : List Removal) :
    stack (r :: later) = stack later := by
  simp [stack, h]

private theorem stack_cons_simplified {r : Removal} (h : r.aside = false) (later : List Removal) :
    stack (r :: later) = stack later ++ [r.node] := by
  simp [stack, h]

theorem exists_selected (hpools : pools.Distinct) {removals : List Removal}
    (heased : Removal.Eased pools g removals)
    (hn : ((removals.map Removal.node).map Node.id).Nodup) :
    ∀ n ∈ stack removals, ∃ r, (selected pools g removals)[n.id]? = some (.register r) := by
  induction removals with
  | nil => simp [stack]
  | cons r later ih =>
    have hlater := ih heased.2 (List.nodup_cons.mp hn).2
    intro n hmem
    cases haside : r.aside with
    | true =>
      rw [selected, stack_cons_aside haside]
      rw [stack_cons_aside haside] at hmem
      exact hlater n hmem
    | false =>
      -- what was removed later is decided by now, and `r` comes next
      rw [selected, stack_cons_simplified haside, List.foldl_append, List.foldl_cons,
        List.foldl_nil, getElem?_assign]
      rw [stack_cons_simplified haside, List.mem_append, List.mem_singleton] at hmem
      by_cases hid : r.node.id = n.id
      · obtain ⟨q, hq⟩ := exists_pick? (hpools.ofClass r.node.file)
          (fun id c => mem_ids_of_selected) (heased.1 haside)
        rw [if_pos hid]
        exact ⟨q, congrArg (fun choice => some (Color.ofChoice choice)) hq⟩
      · rw [if_neg hid]
        exact hlater n (hmem.resolve_right fun he => hid (he ▸ rfl))

theorem getElem?_foldl_assign {nodes : List Node} {id : Nat} (h : ∀ n ∈ nodes, n.id ≠ id)
    (colors : Colors) : (nodes.foldl (assign pools g) colors)[id]? = colors[id]? := by
  induction nodes generalizing colors with
  | nil => rfl
  | cons n nodes ih =>
    rw [List.foldl_cons, ih (fun m hm => h m (by simp [hm])), getElem?_assign,
      if_neg (h n (by simp))]

theorem colors_eq_selected {removals : List Removal}
    (hn : ((removals.map Removal.node).map Node.id).Nodup) {n : Node} (h : n ∈ stack removals) :
    (colors pools g removals)[n.id]? = (selected pools g removals)[n.id]? := by
  rw [colors, List.foldl_append]
  apply getElem?_foldl_assign
  intro m hm hid
  simp only [stack, candidates, List.mem_reverse, List.mem_map, List.mem_filter] at h hm
  obtain ⟨r, ⟨hr, hkept⟩, rfl⟩ := h
  obtain ⟨r', ⟨hr', haside⟩, rfl⟩ := hm
  rw [List.map_map] at hn
  have he : r' = r := List.inj_on_of_nodup_map hn hr' hr hid
  simp [← he, haside] at hkept

end Coloring

end RegisterColoring
