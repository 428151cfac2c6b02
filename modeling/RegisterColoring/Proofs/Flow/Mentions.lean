import RegisterColoring.Flow.Build
import RegisterColoring.Proofs.Numbering
import Std.Data.TreeMap.Lemmas

namespace RegisterColoring

namespace Mentions

def onLine (m : Mentions) (first line : Nat) : List Nat := m.perLine[line - first]?.getD []

/-- The two views agree, and only variables with a line are listed. -/
structure Agree (m : Mentions) (first : Nat) : Prop where
  lines : ∀ id line, line ∈ m.linesOf.getD id [] ↔ first ≤ line ∧ id ∈ m.onLine first line
  listed : ∀ id, id ∈ m.linesOf → m.linesOf.getD id [] ≠ []

theorem agree_none (count first : Nat) : (none count).Agree first where
  lines id line := by
    have hempty : (none count).onLine first line = [] := by
      simp only [onLine, none, Array.getElem?_replicate]
      split <;> rfl
    rw [hempty]
    simp [none]
  listed id h := by simp [none] at h

private theorem Agree.mem_linesOf {m : Mentions} {first : Nat} (h : m.Agree first) {id : Nat} :
    id ∈ m.linesOf ↔ ∃ line, first ≤ line ∧ id ∈ m.onLine first line := by
  constructor
  · intro hid
    obtain ⟨line, hline⟩ := List.exists_mem_of_ne_nil _ (h.listed id hid)
    exact ⟨line, (h.lines id line).mp hline⟩
  · rintro ⟨line, hline⟩
    by_contra hid
    have hl := (h.lines id line).mpr hline
    rw [Std.TreeMap.getD_eq_fallback hid] at hl
    exact List.not_mem_nil hl

@[simp] theorem size_perLine_record (m : Mentions) (first line id : Nat) :
    (m.record first line id).perLine.size = m.perLine.size := by
  unfold record
  split <;> simp

theorem mem_onLine_record (m : Mentions) {first line : Nat} (hfirst : first ≤ line)
    (hsize : line - first < m.perLine.size) (id id' line' : Nat) (hfirst' : first ≤ line') :
    id' ∈ (m.record first line id).onLine first line' ↔
      id' ∈ m.onLine first line' ∨ (line' = line ∧ id' = id) := by
  unfold record
  split
  · next hmem =>
    -- the line lists the variable already
    have hid : id ∈ m.onLine first line := by simpa [onLine] using hmem
    constructor
    · exact Or.inl
    · rintro (h | ⟨rfl, rfl⟩)
      · exact h
      · exact hid
  · simp only [onLine, Array.getElem?_modify]
    by_cases hl : line' = line
    · subst hl
      simp [Array.getElem?_eq_getElem hsize]
    · have hne : ¬ line - first = line' - first := by omega
      simp [hne, hl]

theorem getD_linesOf_record (m : Mentions) (first line id id' : Nat) :
    (m.record first line id).linesOf.getD id' [] =
      if (m.onLine first line).contains id = false ∧ id = id' then
        m.linesOf.getD id' [] ++ [line] else m.linesOf.getD id' [] := by
  by_cases hmem : (m.perLine[line - first]?.getD []).contains id
  · simp only [record, onLine, hmem, if_true]
    simp
  · have hfalse := Bool.not_eq_true _ ▸ hmem
    simp only [record, onLine, hfalse, Bool.false_eq_true, if_false, true_and,
      Std.TreeMap.getD_insert, Nat.compare_eq_eq]
    by_cases he : id = id'
    · subst he
      simp
    · simp [he]

theorem Agree.record {m : Mentions} {first line : Nat} (h : m.Agree first)
    (hfirst : first ≤ line) (hsize : line - first < m.perLine.size) (id : Nat) :
    (m.record first line id).Agree first := by
  have honLine := fun id' line' => mem_onLine_record m hfirst hsize id id' line'
  have hgetD := getD_linesOf_record m first line id
  constructor
  · intro id' line'
    rw [hgetD id']
    have hlines := h.lines id' line'
    by_cases hf : first ≤ line'
    · rw [honLine id' line' hf]
      split
      · next hc =>
        obtain ⟨_, rfl⟩ := hc
        rw [List.mem_append, hlines, List.mem_singleton]
        simp [hf]
      · next hc =>
        rw [hlines]
        constructor
        · rintro ⟨_, hm⟩
          exact ⟨hf, .inl hm⟩
        · rintro ⟨_, hm | ⟨rfl, rfl⟩⟩
          · exact ⟨hf, hm⟩
          · refine ⟨hf, ?_⟩
            simpa using hc
    · have hl : line' ≠ line := fun he => hf (he ▸ hfirst)
      split
      · rw [List.mem_append, hlines, List.mem_singleton]
        simp [hf, hl]
      · rw [hlines]
        simp [hf]
  · intro id' hid'
    rw [hgetD id']
    split
    · simp
    · next hc =>
      apply h.listed id'
      unfold Mentions.record at hid'
      split at hid'
      · exact hid'
      · next hmem =>
        rw [Std.TreeMap.mem_insert, Nat.compare_eq_eq] at hid'
        rcases hid' with rfl | hid'
        · exact absurd ⟨by simpa [onLine] using hmem, rfl⟩ hc
        · exact hid'

end Mentions

namespace Block

def mentions (b : Block) : Access → Mentions
  | .define => b.defs
  | .use => b.uses

def idsAt (b : Block) (access : Access) (line : Nat) : List Nat :=
  if b.first ≤ line then (b.mentions access).onLine b.first line else []

theorem getD_usesAt? (b : Block) (line : Nat) : (b.usesAt? line).getD [] = b.idsAt .use line := by
  unfold usesAt? idsAt
  split <;> rfl

theorem getD_defsAt? (b : Block) (line : Nat) :
    (b.defsAt? line).getD [] = b.idsAt .define line := by
  unfold defsAt? idsAt
  split <;> rfl

def HasLine (b : Block) (line : Nat) : Prop :=
  b.first ≤ line ∧ ∀ access, line - b.first < (b.mentions access).perLine.size

def Agrees (b : Block) : Prop := ∀ access, (b.mentions access).Agree b.first

theorem Agrees.mem_getD_linesOf {b : Block} (h : b.Agrees) (access : Access) {v line : Nat} :
    line ∈ (b.mentions access).linesOf.getD v [] ↔ v ∈ b.idsAt access line := by
  rw [(h access).lines, idsAt]
  by_cases hfirst : b.first ≤ line <;> simp [hfirst]

theorem Agrees.mem_linesOf {b : Block} (h : b.Agrees) (access : Access) {id : Nat} :
    id ∈ (b.mentions access).linesOf ↔ ∃ line, id ∈ b.idsAt access line := by
  rw [(h access).mem_linesOf]
  constructor
  · rintro ⟨line, hf, hid⟩
    exact ⟨line, by rw [idsAt, if_pos hf]; exact hid⟩
  · rintro ⟨line, hid⟩
    unfold idsAt at hid
    split at hid
    · next hf => exact ⟨line, hf, hid⟩
    · exact absurd hid List.not_mem_nil

end Block

end RegisterColoring
