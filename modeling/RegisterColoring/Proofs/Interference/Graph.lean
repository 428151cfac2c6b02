import RegisterColoring.Interference.Graph
import Mathlib.Data.List.Basic

namespace RegisterColoring.InterferenceGraph

theorem interferes_iff {g : InterferenceGraph} {v w : Nat} :
    g.interferes v w = true ↔ ∃ row, g.row? v = some row ∧ row[w]? = some true := by
  unfold interferes
  cases g.row? v with
  | none => simp
  | some row => cases h : row[w]? <;> simp [h]

theorem mem_neighbors {g : InterferenceGraph} {v w : Nat} :
    w ∈ g.neighbors v ↔ g.interferes v w = true := by
  unfold neighbors interferes
  cases g.row? v with
  | none => simp
  | some row =>
    simp only [List.mem_filter, List.mem_range, Option.any_some, and_iff_right_iff_imp]
    intro h
    by_contra hlt
    rw [Array.getElem?_eq_none (Nat.not_lt.mp hlt)] at h
    cases h

theorem ascending_neighbors (g : InterferenceGraph) (v : Nat) :
    (g.neighbors v).Pairwise (· < ·) := by
  unfold neighbors
  cases g.row? v with
  | none => exact .nil
  | some row => exact List.pairwise_lt_range.filter _

theorem nodup_neighbors (g : InterferenceGraph) (v : Nat) : (g.neighbors v).Nodup :=
  (g.ascending_neighbors v).imp Nat.ne_of_lt

/-- Every row has one bit for each node that there is room for. -/
def Sized (g : InterferenceGraph) : Prop :=
  ∀ v row, g.row? v = some row → row.size = g.rows.size

theorem Sized.lt_size {g : InterferenceGraph} (h : g.Sized) {v w : Nat}
    (hvw : g.interferes v w = true) : w < g.rows.size := by
  obtain ⟨row, hrow, hw⟩ := interferes_iff.mp hvw
  rw [← h v row hrow]
  exact (Array.getElem?_eq_some_iff.mp hw).1

theorem row?_empty (size v : Nat) : (empty size).row? v = none := by
  simp only [row?, empty, Array.getElem?_replicate]
  split <;> rfl

theorem size_grow (g : InterferenceGraph) (v : Nat) :
    (g.grow v).rows.size = max g.rows.size (v + 1) := by
  unfold grow
  split
  · omega
  · simp
    omega

private theorem row?_grow (g : InterferenceGraph) (v w : Nat) : (g.grow v).row? w =
    (g.row? w).map (· ++ Array.replicate (v + 1 - g.rows.size) false) := by
  unfold grow
  split
  · next h =>
    have hzero : v + 1 - g.rows.size = 0 := by omega
    cases g.row? w <;> simp [hzero]
  · unfold row?
    by_cases hw : w < g.rows.size
    · rw [Array.getElem?_append_left (by simpa using hw), Array.getElem?_map,
        Array.getElem?_eq_getElem hw]
      cases g.rows[w] <;> rfl
    · rw [Array.getElem?_append_right (by simpa using hw), Array.getElem?_replicate,
        Array.getElem?_eq_none (Nat.not_lt.mp hw)]
      split <;> rfl

private theorem interferes_grow (g : InterferenceGraph) (v x y : Nat) :
    (g.grow v).interferes x y = g.interferes x y := by
  unfold interferes
  rw [row?_grow]
  cases g.row? x with
  | none => rfl
  | some row =>
    simp only [Option.map_some, Option.any_some, Array.getElem?_append, Array.getElem?_replicate]
    by_cases hy : y < row.size
    · simp [hy]
    · rw [if_neg hy, Array.getElem?_eq_none (Nat.not_lt.mp hy)]
      split <;> rfl

private theorem Sized.grow {g : InterferenceGraph} (h : g.Sized) (v : Nat) : (g.grow v).Sized := by
  intro w row hrow
  rw [row?_grow] at hrow
  obtain ⟨old, hold, rfl⟩ := Option.map_eq_some_iff.mp hrow
  rw [Array.size_append, Array.size_replicate, size_grow, h w old hold]
  omega

theorem size_addNode (g : InterferenceGraph) (v : Nat) :
    (g.addNode v).rows.size = max g.rows.size (v + 1) := by
  simp only [addNode]
  split
  · exact g.size_grow v
  · rw [Array.size_setIfInBounds]
    exact g.size_grow v

private theorem row?_addNode (g : InterferenceGraph) (v w : Nat) : (g.addNode v).row? w =
    if w = v then
      some (((g.grow v).row? v).getD (Array.replicate (g.grow v).rows.size false))
    else (g.grow v).row? w := by
  unfold addNode
  by_cases hc : (g.grow v).contains v = true
  · obtain ⟨row, hrow⟩ := Option.isSome_iff_exists.mp hc
    simp only [hc, if_true]
    split
    · next hw => rw [hw, hrow, Option.getD_some]
    · rfl
  · have hnone : (g.grow v).row? v = none := by simpa [contains] using hc
    simp only [hc, Bool.false_eq_true, if_false, hnone, Option.getD_none]
    unfold row?
    rw [Array.getElem?_setIfInBounds]
    by_cases hw : w = v
    · subst hw
      have hlt : w < (g.grow w).rows.size := by
        rw [size_grow]
        omega
      simp [hlt]
    · simp [hw, Ne.symm hw]

theorem interferes_addNode (g : InterferenceGraph) (v x y : Nat) :
    (g.addNode v).interferes x y = g.interferes x y := by
  rw [← g.interferes_grow v x y]
  unfold interferes
  rw [row?_addNode]
  split
  · next hx =>
    subst hx
    cases (g.grow x).row? x with
    | none =>
      simp only [Option.getD_none, Option.any_some, Option.any_none, Array.getElem?_replicate]
      split <;> rfl
    | some row => rfl
  · rfl

theorem Sized.addNode {g : InterferenceGraph} (h : g.Sized) (v : Nat) : (g.addNode v).Sized := by
  intro w row hrow
  have hsize : (g.addNode v).rows.size = (g.grow v).rows.size := by
    rw [size_addNode, size_grow]
  rw [row?_addNode] at hrow
  rw [hsize]
  split at hrow
  · rw [Option.some.injEq] at hrow
    cases hv : (g.grow v).row? v with
    | none =>
      rw [hv] at hrow
      rw [← hrow, Option.getD_none, Array.size_replicate]
    | some old =>
      rw [hv, Option.getD_some] at hrow
      exact hrow ▸ h.grow v v old hv
  · exact h.grow v w row hrow

private theorem exists_row?_addNode (g : InterferenceGraph) (v : Nat) :
    ∃ row, (g.addNode v).row? v = some row := by
  rw [row?_addNode, if_pos rfl]
  exact ⟨_, rfl⟩

theorem size_setBit (g : InterferenceGraph) (v w : Nat) (bit : Bool) :
    (g.setBit v w bit).rows.size = g.rows.size := by
  simp [setBit]

private theorem row?_setBit (g : InterferenceGraph) (v w : Nat) (bit : Bool) (x : Nat) :
    (g.setBit v w bit).row? x =
      if x = v then (g.row? x).map (·.setIfInBounds w bit) else g.row? x := by
  unfold setBit row?
  rw [Array.getElem?_modify]
  by_cases hx : x = v
  · rw [if_pos hx.symm, if_pos hx]
    rcases g.rows[x]? with _ | _ | row <;> rfl
  · rw [if_neg (Ne.symm hx), if_neg hx]

theorem Sized.setBit {g : InterferenceGraph} (h : g.Sized) (v w : Nat) (bit : Bool) :
    (g.setBit v w bit).Sized := by
  intro x row hrow
  rw [row?_setBit] at hrow
  rw [size_setBit]
  split at hrow
  · obtain ⟨old, hold, rfl⟩ := Option.map_eq_some_iff.mp hrow
    rw [Array.size_setIfInBounds]
    exact h x old hold
  · exact h x row hrow

private theorem interferes_setBit {g : InterferenceGraph} {v w : Nat} {row : Array Bool}
    (hrow : g.row? v = some row) (hw : w < row.size) (bit : Bool) (x y : Nat) :
    (g.setBit v w bit).interferes x y = if x = v ∧ y = w then bit else g.interferes x y := by
  unfold interferes
  rw [row?_setBit]
  by_cases hx : x = v
  · subst hx
    rw [if_pos rfl, hrow]
    simp only [Option.map_some, Option.any_some, Array.getElem?_setIfInBounds, true_and]
    by_cases hy : y = w
    · subst hy
      simp [hw]
    · simp [hy, Ne.symm hy]
  · rw [if_neg hx, if_neg (fun h => hx h.1)]

theorem Sized.addEdge {g : InterferenceGraph} (h : g.Sized) (v w : Nat) :
    (g.addEdge v w).Sized := by
  unfold InterferenceGraph.addEdge
  split
  · exact h
  · exact (((h.addNode v).addNode w).setBit v w true).setBit w v true

theorem size_addEdge_of_lt (g : InterferenceGraph) {v w : Nat} (hv : v < g.rows.size)
    (hw : w < g.rows.size) : (g.addEdge v w).rows.size = g.rows.size := by
  unfold addEdge
  split
  · rfl
  · rw [size_setBit, size_setBit, size_addNode, size_addNode]
    omega

theorem interferes_addEdge {g : InterferenceGraph} (h : g.Sized) (v w x y : Nat) :
    (g.addEdge v w).interferes x y = true ↔
      g.interferes x y = true ∨ (v ≠ w ∧ ((x = v ∧ y = w) ∨ (x = w ∧ y = v))) := by
  unfold addEdge
  by_cases hvw : v = w
  · simp [hvw]
  · have hs := (h.addNode v).addNode w
    have hsize : ((g.addNode v).addNode w).rows.size = max (max g.rows.size (v + 1)) (w + 1) := by
      rw [size_addNode, size_addNode]
    obtain ⟨rv, hrv⟩ : ∃ row, ((g.addNode v).addNode w).row? v = some row := by
      obtain ⟨row, hrow⟩ := g.exists_row?_addNode v
      rw [row?_addNode, if_neg hvw, row?_grow, hrow]
      exact ⟨_, rfl⟩
    obtain ⟨rw', hrw⟩ := (g.addNode v).exists_row?_addNode w
    have hw : w < rv.size := by
      rw [hs v rv hrv, hsize]
      omega
    have hrw' : (((g.addNode v).addNode w).setBit v w true).row? w = some rw' := by
      rw [row?_setBit, if_neg (Ne.symm hvw), hrw]
    have hv : v < rw'.size := by
      rw [hs w rw' hrw, hsize]
      omega
    rw [if_neg hvw, interferes_setBit hrw' hv, interferes_setBit hrv hw, interferes_addNode,
      interferes_addNode]
    by_cases h₁ : x = w ∧ y = v
    · simp [h₁, hvw]
    · by_cases h₂ : x = v ∧ y = w
      · simp [h₂, hvw]
      · simp [h₁, h₂]

theorem contains_iff {g : InterferenceGraph} {v : Nat} :
    g.contains v = true ↔ ∃ row, g.row? v = some row :=
  Option.isSome_iff_exists

theorem contains_of_interferes {g : InterferenceGraph} {v w : Nat}
    (h : g.interferes v w = true) : g.contains v = true := by
  rcases interferes_iff.mp h with ⟨row, hrow, _⟩
  exact contains_iff.mpr ⟨row, hrow⟩

theorem contains_addNode (g : InterferenceGraph) (v x : Nat) :
    (g.addNode v).contains x = true ↔ g.contains x = true ∨ x = v := by
  by_cases hx : x = v
  · simp [contains, row?_addNode, hx]
  · simp [contains, row?_addNode, row?_grow, hx]

private theorem contains_setBit (g : InterferenceGraph) (v w : Nat) (bit : Bool) (x : Nat) :
    (g.setBit v w bit).contains x = g.contains x := by
  rw [contains, row?_setBit]
  split <;> simp [contains]

theorem contains_addEdge (g : InterferenceGraph) (v w x : Nat) :
    (g.addEdge v w).contains x = true ↔
      g.contains x = true ∨ (v ≠ w ∧ (x = v ∨ x = w)) := by
  unfold addEdge
  split
  · next h => simp [h]
  · next h =>
    rw [contains_setBit, contains_setBit, contains_addNode, contains_addNode]
    simp [h, or_assoc]

private theorem interferes_clearBit (g : InterferenceGraph) (v w x y : Nat) :
    (g.setBit v w false).interferes x y = true ↔
      g.interferes x y = true ∧ ¬ (x = v ∧ y = w) := by
  rw [interferes, row?_setBit, interferes]
  by_cases hx : x = v
  · rw [if_pos hx]
    cases g.row? x with
    | none => simp
    | some row =>
      simp only [Option.map_some, Option.any_some, Array.getElem?_setIfInBounds]
      by_cases hy : y = w
      · subst hy
        simp only [hx, and_self, not_true_eq_false, and_false, if_true, iff_false]
        split <;> simp
      · simp [hx, hy, Ne.symm hy]
  · simp [hx]

private theorem interferes_clearBits (ws : List Nat) (g : InterferenceGraph) (v x y : Nat) :
    (ws.foldl (fun g w => g.setBit w v false) g).interferes x y = true ↔
      g.interferes x y = true ∧ ¬ (x ∈ ws ∧ y = v) := by
  induction ws generalizing g with
  | nil => simp
  | cons w ws ih =>
    rw [List.foldl_cons, ih, interferes_clearBit, List.mem_cons]
    tauto

theorem interferes_removeNode {g : InterferenceGraph}
    (hsymm : ∀ x y, g.interferes x y = true → g.interferes y x = true) (v x y : Nat) :
    (g.removeNode v).interferes x y = true ↔ g.interferes x y = true ∧ x ≠ v ∧ y ≠ v := by
  have hdrop : interferes ⟨g.rows.setIfInBounds v none⟩ x y = true ↔
      g.interferes x y = true ∧ x ≠ v := by
    by_cases hx : x = v
    · subst hx
      simp only [interferes, row?, Array.getElem?_setIfInBounds, if_true, ne_eq,
        not_true_eq_false, and_false, iff_false]
      split <;> simp
    · simp [interferes, row?, hx, Ne.symm hx]
  rw [removeNode, interferes_clearBits, hdrop, mem_neighbors]
  constructor
  · rintro ⟨⟨hxy, hx⟩, hnot⟩
    refine ⟨hxy, hx, ?_⟩
    rintro rfl
    exact hnot ⟨hsymm _ _ hxy, rfl⟩
  · rintro ⟨hxy, hx, hy⟩
    exact ⟨⟨hxy, hx⟩, fun h => hy h.2⟩

theorem contains_removeNode (g : InterferenceGraph) (v x : Nat) :
    (g.removeNode v).contains x = true ↔ g.contains x = true ∧ x ≠ v := by
  have hclear : ∀ (ws : List Nat) (g : InterferenceGraph),
      (ws.foldl (fun g w => g.setBit w v false) g).contains x = g.contains x := by
    intro ws
    induction ws with
    | nil => exact fun _ => rfl
    | cons w ws ih => exact fun g => (ih _).trans (g.contains_setBit w v false x)
  rw [removeNode, hclear]
  by_cases hx : x = v
  · subst hx
    simp only [contains, row?, Array.getElem?_setIfInBounds, if_true, ne_eq, not_true_eq_false,
      and_false, iff_false]
    split <;> simp
  · simp [contains, row?, hx, Ne.symm hx]

private theorem foldl_setBit_sized (ws : List Nat) (v : Nat) (g : InterferenceGraph)
    (h : g.Sized) :
    (ws.foldl (fun g w => g.setBit w v false) g).Sized ∧
      (ws.foldl (fun g w => g.setBit w v false) g).rows.size = g.rows.size := by
  induction ws generalizing g with
  | nil => exact ⟨h, rfl⟩
  | cons w ws ih =>
    obtain ⟨hs, hsize⟩ := ih (g.setBit w v false) (h.setBit w v false)
    exact ⟨hs, hsize.trans (g.size_setBit w v false)⟩

theorem Sized.dropRow {g : InterferenceGraph} (h : g.Sized) (v : Nat) :
    InterferenceGraph.Sized ⟨g.rows.setIfInBounds v none⟩ := by
  intro w row hrow
  simp only [row?, Array.getElem?_setIfInBounds] at hrow
  rw [Array.size_setIfInBounds]
  split at hrow
  · split at hrow <;> cases hrow
  · exact h w row hrow

theorem Sized.removeNode {g : InterferenceGraph} (h : g.Sized) (v : Nat) :
    (g.removeNode v).Sized ∧ (g.removeNode v).rows.size = g.rows.size := by
  obtain ⟨hs, hsize⟩ := foldl_setBit_sized (g.neighbors v) v _ (h.dropRow v)
  exact ⟨hs, hsize.trans Array.size_setIfInBounds⟩

end RegisterColoring.InterferenceGraph
