import RegisterColoring.Proofs.Flow.Buildable
import RegisterColoring.Proofs.Flow.Control
/-!
# Where blocks end

A block ends after a jump, before a label and at the end of the code. The computed blocks end on
these lines and on no others, and a tiling is determined by the lines on which its blocks end.
-/
namespace RegisterColoring.Bounds

def Jumps (code : List Instruction) (line : Nat) : Prop :=
  ∃ i, code[line]? = some i ∧ (i.opcode = .jump ∨ i.opcode = .ifFalseJump)

def Labelled (code : List Instruction) (line : Nat) : Prop :=
  ∃ label, Control.labelAt code line = some label ∧ label ≠ ""

private theorem jumps_iff {code : List Instruction} {line : Nat} {i : Instruction}
    (hi : code[line]? = some i) : Jumps code line ↔ i.opcode.isJump = true := by
  have hjump : i.opcode.isJump = true ↔ i.opcode = .jump ∨ i.opcode = .ifFalseJump := by
    cases i.opcode <;> simp [Opcode.isJump]
  simp [Jumps, hi, hjump]

private theorem labelled_iff {code : List Instruction} {line : Nat} {i : Instruction}
    (hi : code[line]? = some i) : Labelled code line ↔ i.hasLabel = true := by
  simp [Labelled, Control.labelAt, hi, Instruction.hasLabel, Option.any_eq_true]

private theorem Jumps.lt_length {code : List Instruction} {line : Nat} (h : Jumps code line) :
    line < code.length := by
  obtain ⟨i, hi, _⟩ := h
  exact (List.getElem?_eq_some_iff.mp hi).1

private theorem Labelled.lt_length {code : List Instruction} {line : Nat} (h : Labelled code line) :
    line < code.length := by
  obtain ⟨label, hlabel, _⟩ := h
  exact Control.lt_of_labelAt hlabel

/-- The bounds tile the code, a jump stands last in its block and a label first, and every block
but the last ends for one of these two reasons. -/
structure Maximal (code : List Instruction) (bounds : List Bounds) : Prop where
  tiles : Tiles code.length 0 bounds
  jump_last : ∀ b ∈ bounds, ∀ line, b.first ≤ line → line ≤ b.last → Jumps code line →
    line = b.last
  label_first : ∀ b ∈ bounds, ∀ line, b.first ≤ line → line ≤ b.last → Labelled code line →
    line = b.first
  forced : ∀ b ∈ bounds.dropLast, Jumps code b.last ∨ Labelled code (b.last + 1)

namespace Tiles
variable {length start : Nat} {b : Bounds} {rest : List Bounds}

private theorem lt_of_mem_lasts (h : Tiles length start (b :: rest)) {line : Nat}
    (hline : line ∈ rest.map last) : b.last < line := by
  obtain ⟨c, hc, rfl⟩ := List.mem_map.mp hline
  obtain ⟨hfirst, hle, _⟩ := h.2.2.2.of_mem hc
  omega

private theorem mem_lasts_tail_iff (h : Tiles length start (b :: rest)) {line : Nat} :
    line ∈ rest.map last ↔ line ∈ (b :: rest).map last ∧ b.last < line := by
  rw [List.map_cons, List.mem_cons]
  constructor
  · intro hline
    exact ⟨.inr hline, h.lt_of_mem_lasts hline⟩
  · intro hline
    rcases hline with ⟨rfl | hline, hlt⟩
    · exact absurd hlt (Nat.lt_irrefl _)
    · exact hline

private theorem last_le (h : Tiles length start (b :: rest)) {line : Nat}
    (hline : line ∈ (b :: rest).map last) : b.last ≤ line := by
  rw [List.map_cons, List.mem_cons] at hline
  rcases hline with rfl | hline
  · exact Nat.le_refl _
  · exact Nat.le_of_lt (h.lt_of_mem_lasts hline)

private theorem not_nil_of_cons (h : Tiles length start (b :: rest)) : ¬ Tiles length start [] := by
  intro hnil
  obtain ⟨hfirst, hle, hlt, _⟩ := h
  change start = length at hnil
  omega

/-- A tiling is determined by the last lines of its blocks. -/
theorem eq_of_lasts {bounds others : List Bounds} (h : Tiles length start bounds)
    (h' : Tiles length start others)
    (hlasts : ∀ line, line ∈ bounds.map last ↔ line ∈ others.map last) : bounds = others := by
  induction bounds generalizing start others with
  | nil =>
    cases others with
    | nil => rfl
    | cons c others => exact absurd h h'.not_nil_of_cons
  | cons b bounds ih =>
    cases others with
    | nil => exact absurd h' h.not_nil_of_cons
    | cons c others =>
      have hlast : b.last = c.last := by
        apply Nat.le_antisymm
        · exact h.last_le ((hlasts c.last).mpr (by simp))
        · exact h'.last_le ((hlasts b.last).mp (by simp))
      have htail : ∀ line, line ∈ bounds.map last ↔ line ∈ others.map last := by
        intro line
        rw [h.mem_lasts_tail_iff, h'.mem_lasts_tail_iff, hlasts, hlast]
      obtain ⟨hfirst, _, _, hrest⟩ := h
      obtain ⟨hfirst', _, _, hrest'⟩ := h'
      rw [← hlast] at hrest'
      obtain ⟨first, last⟩ := b
      obtain ⟨first', last'⟩ := c
      simp only at hfirst hfirst' hlast
      rw [hfirst, hfirst', hlast, ih hrest hrest' htail]

private theorem mem_dropLast_iff {bounds : List Bounds} (h : Tiles length start bounds)
    (hb : b ∈ bounds) : b ∈ bounds.dropLast ↔ b.last + 1 < length := by
  induction bounds generalizing start with
  | nil => exact absurd hb List.not_mem_nil
  | cons c rest ih =>
    obtain ⟨_, _, _, hrest⟩ := h
    cases rest with
    | nil =>
      have hend : c.last + 1 = length := hrest
      obtain rfl := List.mem_singleton.mp hb
      simp [hend]
    | cons d rest =>
      have hlt : c.last + 1 < length := by
        obtain ⟨hfirst, hle, hlt, _⟩ := hrest
        omega
      rw [List.dropLast_cons_cons, List.mem_cons]
      rcases List.mem_cons.mp hb with rfl | hb
      · simp [hlt]
      · rw [ih hrest hb]
        constructor
        · intro hb
          rcases hb with rfl | hb
          · exact hlt
          · exact hb
        · exact .inr

end Tiles

/-- The code ends or jumps on the line, or the next line carries a label. -/
def Cut (code : List Instruction) (line : Nat) : Prop :=
  line + 1 = code.length ∨ Jumps code line ∨ Labelled code (line + 1)

private theorem Cut.lt_length {code : List Instruction} {line : Nat} (h : Cut code line) :
    line < code.length := by
  rcases h with hend | hjump | hlabel
  · omega
  · exact hjump.lt_length
  · have hlt := hlabel.lt_length
    omega

private theorem Maximal.mem_lasts_iff {code : List Instruction} {bounds : List Bounds}
    (h : Maximal code bounds) {line : Nat} : line ∈ bounds.map last ↔ Cut code line := by
  constructor
  · intro hline
    obtain ⟨b, hb, rfl⟩ := List.mem_map.mp hline
    have hlt := (h.tiles.of_mem hb).2.2
    by_cases hend : b.last + 1 < code.length
    · exact .inr (h.forced b ((h.tiles.mem_dropLast_iff hb).mpr hend))
    · exact .inl (by omega)
  · intro hcut
    obtain ⟨k, b, hk, hfirst, hle⟩ := h.tiles.exists_block (Nat.zero_le line) hcut.lt_length
    have hb := List.mem_of_getElem? hk
    have hlt := (h.tiles.of_mem hb).2.2
    have hlast : line = b.last := by
      rcases hcut with hend | hjump | hlabel
      · omega
      · exact h.jump_last b hb line hfirst hle hjump
      -- within the block, the line with the label would have to be the first one
      · by_contra hne
        have := h.label_first b hb (line + 1) (by omega) (by omega) hlabel
        omega
    exact List.mem_map.mpr ⟨b, hb, hlast.symm⟩

private theorem Maximal.unique {code : List Instruction} {bounds others : List Bounds}
    (h : Maximal code bounds) (h' : Maximal code others) : bounds = others := by
  apply h.tiles.eq_of_lasts h'.tiles
  intro line
  rw [h.mem_lasts_iff, h'.mem_lasts_iff]

private theorem cut_of_mem_partitionFrom {code rest : List Instruction} {first line : Nat}
    (hdrop : code.drop line = rest) : ∀ b ∈ partitionFrom first line rest, Cut code b.last := by
  induction rest generalizing first line with
  | nil => simp [partitionFrom]
  | cons i rest ih =>
    obtain ⟨hi, hrest⟩ := getElem?_of_drop hdrop
    rw [partitionFrom]
    split
    · next hends =>
      have hcut : Cut code line := by
        simp only [Bool.or_eq_true, or_assoc] at hends
        rcases hends with hjump | hempty | hlabel
        · exact .inr (.inl ((jumps_iff hi).mpr hjump))
        · rw [List.isEmpty_iff.mp hempty, List.drop_eq_nil_iff] at hrest
          have hlt := (List.getElem?_eq_some_iff.mp hi).1
          exact .inl (by omega)
        · obtain ⟨next, hnext, hlabel⟩ := (Option.any_eq_true _ _).mp hlabel
          rw [← hrest, List.head?_drop] at hnext
          exact .inr (.inr ((labelled_iff hnext).mpr hlabel))
      intro b hb
      rcases List.mem_cons.mp hb with rfl | hb
      · exact hcut
      · exact ih hrest b hb
    · exact ih hrest

private theorem maximal_partition (code : List Instruction) : Maximal code (partition code) where
  tiles := tiles_partition code
  jump_last b hb line hfirst hlast hjump := by
    by_contra hne
    have hi := List.getElem?_eq_getElem hjump.lt_length
    have hno := (straight_partition code b hb).jump_last line _ hfirst (by omega) hi
    rw [(jumps_iff hi).mp hjump] at hno
    cases hno
  label_first b hb line hfirst hlast hlabel := by
    by_contra hne
    have hi := List.getElem?_eq_getElem hlabel.lt_length
    have hno := (straight_partition code b hb).label_first line _ (by omega) hlast hi
    rw [(labelled_iff hi).mp hlabel] at hno
    cases hno
  forced b hb := by
    have hmem := (List.dropLast_sublist _).subset hb
    have hlt := ((tiles_partition code).mem_dropLast_iff hmem).mp hb
    rcases cut_of_mem_partitionFrom rfl b hmem with hend | hforced
    · omega
    · exact hforced

-- one cut between a jump and a label, and none before an empty label
example : partition [⟨none, .nop, []⟩, ⟨some "", .jump, []⟩, ⟨some "a", .nop, []⟩,
    ⟨some "", .nop, []⟩, ⟨some "b", .ifFalseJump, []⟩] = [⟨0, 1⟩, ⟨2, 3⟩, ⟨4, 4⟩] := by decide

/-- The computed bounds are the only maximal ones. With them, a flow graph can be made unless an
instruction accesses a variable that the table does not hold. -/
theorem maximal_iff_eq_partition (f : Function) :
    (∀ bounds, Maximal f.code bounds ↔ bounds = partition f.code) ∧
    ∀ t, (∃ g, FlowGraph.ofBounds f t (partition f.code) = .ok g) ∨
      ∃ handle, FlowGraph.ofBounds f t (partition f.code) =
        .error (.unknownVariable f.name handle) := by
  constructor
  · intro bounds
    constructor
    · intro hmaximal
      exact hmaximal.unique (maximal_partition f.code)
    · intro hbounds
      rw [hbounds]
      exact maximal_partition f.code
  · intro t
    have hbuilt := FlowGraph.ofBounds_of_tiles (t := t) (tiles_partition f.code)
    cases hfind : f.accessed.find? fun v => !t.contains v with
    | none => exact .inl (hbuilt.2 hfind)
    | some v => exact .inr ⟨v.handle, hbuilt.1 v hfind⟩

end RegisterColoring.Bounds
