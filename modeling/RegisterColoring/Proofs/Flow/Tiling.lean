import RegisterColoring.Flow.Bounds
import Mathlib.Data.List.Basic

namespace RegisterColoring.Bounds

/-- The bounds cover the lines from `start` up to `length` one after the other. -/
def Tiles (length : Nat) : Nat → List Bounds → Prop
  | start, [] => start = length
  | start, b :: rest =>
    b.first = start ∧ b.first ≤ b.last ∧ b.last < length ∧ Tiles length (b.last + 1) rest

theorem check_eq_ok_iff (function : String) (length start : Nat) (bounds : List Bounds) :
    check function length start bounds = .ok () ↔ Tiles length start bounds := by
  induction bounds generalizing start with
  | nil =>
    simp only [check, Tiles]
    split <;> simp_all
  | cons b rest ih =>
    simp only [check, Tiles]
    split
    · next h => simp [Nat.not_le.mpr h]
    · next hinv =>
      split
      · next h => simp [Nat.not_lt.mpr h]
      · next hlen =>
        split
        · next h =>
          rw [ih]
          exact ⟨fun hrest => ⟨h, by omega, by omega, hrest⟩, fun hall => hall.2.2.2⟩
        · next h => simp [h]

namespace Tiles
variable {length start : Nat} {bounds : List Bounds}

theorem of_mem (h : Tiles length start bounds) {b : Bounds} (hb : b ∈ bounds) :
    start ≤ b.first ∧ b.first ≤ b.last ∧ b.last < length := by
  induction bounds generalizing start with
  | nil => exact absurd hb List.not_mem_nil
  | cons c rest ih =>
    obtain ⟨hfirst, hle, hlt, hrest⟩ := h
    rcases List.mem_cons.mp hb with rfl | hb
    · exact ⟨Nat.le_of_eq hfirst.symm, hle, hlt⟩
    · have := ih hrest hb
      omega

theorem exists_block (h : Tiles length start bounds) {line : Nat} (hstart : start ≤ line)
    (hline : line < length) :
    ∃ (k : Nat) (b : Bounds), bounds[k]? = some b ∧ b.first ≤ line ∧ line ≤ b.last := by
  induction bounds generalizing start with
  | nil =>
    have : start = length := h
    omega
  | cons c rest ih =>
    obtain ⟨hfirst, _, _, hrest⟩ := h
    by_cases hc : line ≤ c.last
    · exact ⟨0, c, rfl, by omega, hc⟩
    · obtain ⟨k, b, hk, hb⟩ := ih hrest (by omega)
      exact ⟨k + 1, b, by simpa using hk, hb⟩

theorem exists_next (h : Tiles length start bounds) {k : Nat} {b : Bounds}
    (hb : bounds[k]? = some b) (hline : b.last + 1 < length) :
    ∃ c : Bounds, bounds[k + 1]? = some c ∧ c.first = b.last + 1 := by
  induction bounds generalizing start k with
  | nil => simp at hb
  | cons c rest ih =>
    obtain ⟨_, _, _, hrest⟩ := h
    cases k with
    | zero =>
      have hcb : c = b := by simpa using hb
      subst hcb
      cases rest with
      | nil =>
        have : c.last + 1 = length := hrest
        omega
      | cons d rest => exact ⟨d, rfl, hrest.1⟩
    | succ k => exact ih hrest (by simpa using hb)

theorem last_lt_first (h : Tiles length start bounds) {j k : Nat} {b c : Bounds}
    (hb : bounds[j]? = some b) (hc : bounds[k]? = some c) (hjk : j < k) : b.last < c.first := by
  induction bounds generalizing start j k with
  | nil => simp at hb
  | cons d rest ih =>
    obtain ⟨_, _, _, hrest⟩ := h
    cases k with
    | zero => omega
    | succ k =>
      have hc' : rest[k]? = some c := by simpa using hc
      cases j with
      | zero =>
        have hdb : d = b := by simpa using hb
        have := hrest.of_mem (List.mem_of_getElem? hc')
        rw [← hdb]
        omega
      | succ j => exact ih hrest (by simpa using hb) hc' (by omega)

end Tiles

/-- A jump is the last line of the block, and a line with a label is the first. -/
structure Straight (code : List Instruction) (b : Bounds) : Prop where
  jump_last : ∀ line i, b.first ≤ line → line < b.last → code[line]? = some i →
    i.opcode.isJump = false
  label_first : ∀ line i, b.first < line → line ≤ b.last → code[line]? = some i →
    i.hasLabel = false

private theorem straight_single (code : List Instruction) (line : Nat) :
    Straight code ⟨line, line⟩ := by
  constructor
  · intro l i hl hl'
    exact absurd (Nat.lt_of_le_of_lt hl hl') (Nat.lt_irrefl line)
  · intro l i hl hl'
    exact absurd (Nat.lt_of_lt_of_le hl hl') (Nat.lt_irrefl line)

private theorem Straight.snoc {code : List Instruction} {first line : Nat}
    (h : Straight code ⟨first, line⟩) {i next : Instruction} (hi : code[line]? = some i)
    (hjump : i.opcode.isJump = false) (hnext : code[line + 1]? = some next)
    (hlabel : next.hasLabel = false) : Straight code ⟨first, line + 1⟩ := by
  constructor
  · intro l j hl hl' hj
    by_cases he : l = line
    · rw [he, hi, Option.some.injEq] at hj
      exact hj ▸ hjump
    · have hlt : l < line := by simp only at hl'; omega
      exact h.jump_last l j hl hlt hj
  · intro l j hl hl' hj
    by_cases he : l = line + 1
    · rw [he, hnext, Option.some.injEq] at hj
      exact hj ▸ hlabel
    · have hle : l ≤ line := by simp only at hl'; omega
      exact h.label_first l j hl hle hj

theorem getElem?_of_drop {code rest : List Instruction} {line : Nat} {i : Instruction}
    (h : code.drop line = i :: rest) : code[line]? = some i ∧ code.drop (line + 1) = rest := by
  constructor
  · rw [← List.head?_drop, h, List.head?_cons]
  · rw [← List.drop_drop, h, List.drop_one, List.tail_cons]

private theorem straight_partitionFrom (code : List Instruction) (first line : Nat)
    (rest : List Instruction) (hdrop : code.drop line = rest)
    (h : Straight code ⟨first, line⟩) : ∀ b ∈ partitionFrom first line rest, Straight code b := by
  induction rest generalizing first line with
  | nil => simp [partitionFrom]
  | cons i rest ih =>
    obtain ⟨hi, hrest⟩ := getElem?_of_drop hdrop
    rw [partitionFrom]
    split
    · intro b hb
      rcases List.mem_cons.mp hb with rfl | hb
      · exact h
      · exact ih (line + 1) (line + 1) hrest (straight_single code _) b hb
    · next hends =>
      simp only [Bool.or_eq_true, not_or, Bool.not_eq_true] at hends
      obtain ⟨⟨hjump, hne⟩, hlabel⟩ := hends
      cases rest with
      | nil => simp at hne
      | cons next rest =>
        exact ih first (line + 1) hrest
          (h.snoc hi hjump (getElem?_of_drop hrest).1 (by simpa using hlabel))

theorem straight_partition (code : List Instruction) : ∀ b ∈ partition code, Straight code b :=
  straight_partitionFrom code 0 0 code rfl (straight_single code 0)

end RegisterColoring.Bounds
