import RegisterColoring.Live.Range
import Mathlib.Data.List.Basic

namespace RegisterColoring.Range

theorem contains_iff {r : Range} {line : Nat} :
    r.contains line = true ↔ r.start ≤ line ∧ line < r.stop := by
  simp [contains]

theorem le_iff {r s : Range} :
    r.le s = true ↔ r.start < s.start ∨ (r.start = s.start ∧ r.stop ≤ s.stop) := by
  simp [le]

theorem start_le_of_le {r s : Range} (h : r.le s = true) : r.start ≤ s.start := by
  rw [le_iff] at h
  omega

theorem le_trans {r s q : Range} (hrs : r.le s = true) (hsq : s.le q = true) : r.le q = true := by
  rw [le_iff] at hrs hsq ⊢
  omega

theorem pairwise_sort (ranges : List Range) : (sort ranges).Pairwise fun r s => r.le s = true := by
  apply List.pairwise_mergeSort
  · intro r s q
    exact le_trans
  · intro r s
    rw [Bool.or_eq_true, le_iff, le_iff]
    omega

theorem pairwise_extend {r s : Range} {rest : List Range}
    (h : (r :: s :: rest).Pairwise fun r s => r.le s = true) :
    (⟨r.start, max r.stop s.stop⟩ :: rest).Pairwise fun r s => r.le s = true := by
  obtain ⟨hr, hs⟩ := List.pairwise_cons.mp h
  obtain ⟨hs, hrest⟩ := List.pairwise_cons.mp hs
  refine List.pairwise_cons.mpr ⟨?_, hrest⟩
  intro q hq
  have hrs := le_iff.mp (hr s (by simp))
  have hsq := le_iff.mp (hs q hq)
  simp only [le_iff]
  omega

def Covered (ranges : List Range) (line : Nat) : Prop := ∃ r ∈ ranges, r.contains line = true

@[simp] theorem not_covered_nil (line : Nat) : ¬ Covered [] line := by
  simp [Covered]

@[simp] theorem covered_cons {r : Range} {ranges : List Range} {line : Nat} :
    Covered (r :: ranges) line ↔ r.contains line = true ∨ Covered ranges line := by
  simp [Covered]

private theorem contains_join {r s : Range} (hstart : r.start ≤ s.start) (h : r.overlaps s = true)
    (line : Nat) : contains ⟨r.start, max r.stop s.stop⟩ line = true ↔
      r.contains line = true ∨ s.contains line = true := by
  simp only [overlaps, decide_eq_true_eq] at h
  simp only [contains_iff]
  omega

private theorem covered_joinFrom {r : Range} {rest : List Range}
    (h : (r :: rest).Pairwise fun r s => r.le s = true) (line : Nat) :
    Covered (joinFrom r rest) line ↔ Covered (r :: rest) line := by
  induction rest generalizing r with
  | nil => simp [joinFrom]
  | cons s rest ih =>
    have hr := List.pairwise_cons.mp h
    have hstart := start_le_of_le (hr.1 s (by simp))
    rw [joinFrom]
    split
    · next hover =>
      rw [ih (pairwise_extend h), covered_cons, contains_join hstart hover]
      simp [or_assoc]
    · rw [covered_cons, ih hr.2, covered_cons (r := r)]

theorem covered_merge (ranges : List Range) (line : Nat) :
    Covered (merge ranges) line ↔ Covered ranges line := by
  have hsame : Covered (sort ranges) line ↔ Covered ranges line := by
    simp [Covered, sort]
  have hsorted := pairwise_sort ranges
  rw [merge, ← hsame]
  cases hs : sort ranges with
  | nil => rfl
  | cons r rest => exact covered_joinFrom (hs ▸ hsorted) line

end RegisterColoring.Range
