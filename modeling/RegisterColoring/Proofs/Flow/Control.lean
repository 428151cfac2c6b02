import RegisterColoring.Proofs.Flow.Built
/-!
# Control from instruction to instruction

Where control may pass from one line of the code to another, read from the instructions alone.
The computed blocks follow it: control stays within a block or takes an edge from the last line
of a block to the first line of another.
-/
namespace RegisterColoring

namespace Control

def labelAt (code : List Instruction) (line : Nat) : Option String :=
  code[line]?.bind Instruction.label

/-- A jump to the label leads to the last line that carries it. The empty label leads nowhere. -/
structure Target (code : List Instruction) (label : String) (line : Nat) : Prop where
  nonempty : label ≠ ""
  carries : labelAt code line = some label
  last : ∀ later < code.length, line < later → labelAt code later ≠ some label

/-- Control may pass from one line to another. -/
inductive Step (code : List Instruction) : Nat → Nat → Prop
  | jump {line target : Nat} {i : Instruction} {label : String} (hi : code[line]? = some i)
    (hop : i.opcode = .jump) (hlabel : i.operands[0]? = some (.label label))
    (htarget : Target code label target) : Step code line target
  | branch {line target : Nat} {i : Instruction} {label : String} (hi : code[line]? = some i)
    (hop : i.opcode = .ifFalseJump) (hlabel : i.operands[1]? = some (.label label))
    (htarget : Target code label target) : Step code line target
  | next {line : Nat} {i : Instruction} (hi : code[line]? = some i) (hjump : i.opcode ≠ .jump)
    (hret : i.opcode ≠ .ret) (hend : i.opcode ≠ .funcEnd) (hline : line + 1 < code.length) :
    Step code line (line + 1)

theorem Step.lt_length {code : List Instruction} {line next : Nat} (h : Step code line next) :
    line < code.length := by
  cases h with
  | jump hi | branch hi | next hi => exact (List.getElem?_eq_some_iff.mp hi).1

theorem jumpTarget_eq_some_iff {i : Instruction} {label : String} : i.jumpTarget = some label ↔
    (i.opcode = .jump ∧ i.operands[0]? = some (.label label)) ∨
      (i.opcode = .ifFalseJump ∧ i.operands[1]? = some (.label label)) := by
  unfold Instruction.jumpTarget
  cases hop : i.opcode with
  | jump | ifFalseJump =>
    simp only [Opcode.isJump, Opcode.labelOperand, if_true, Option.bind_some, true_and, reduceCtorEq,
      false_and, or_false, false_or]
    split
    · next name hname => simp [hname]
    · next hother =>
      simp only [reduceCtorEq, false_iff]
      exact hother label
  | _ => simp [Opcode.isJump]

theorem lt_of_labelAt {code : List Instruction} {line : Nat} {label : String}
    (h : labelAt code line = some label) : line < code.length := by
  obtain ⟨i, hi, _⟩ := Option.bind_eq_some_iff.mp h
  exact (List.getElem?_eq_some_iff.mp hi).1

theorem hasLabel_of_label {i : Instruction} {label : String} (h : i.label = some label)
    (hne : label ≠ "") : i.hasLabel = true := by
  rw [Instruction.hasLabel, h]
  simpa using hne

theorem label_ofBounds {code : List Instruction} {b : Bounds} {label : String} :
    (Block.ofBounds code b).label = some label ↔
      label ≠ "" ∧ labelAt code b.first = some label := by
  simp only [Block.ofBounds, labelAt, Option.bind_eq_some_iff, Option.filter_eq_some_iff]
  constructor
  · intro h
    obtain ⟨i, ⟨hi, hhas⟩, hlabel⟩ := h
    refine ⟨?_, i, hi, hlabel⟩
    rw [Instruction.hasLabel, hlabel] at hhas
    simpa using hhas
  · intro h
    obtain ⟨hne, i, hi, hlabel⟩ := h
    exact ⟨i, ⟨hi, hasLabel_of_label hlabel hne⟩, hlabel⟩

private theorem mem_edges_of_targets {code : List Instruction} {bounds : List Bounds} {k l : Nat}
    {b : Bounds} (hb : bounds[k]? = some b)
    (h : l ∈ Links.targets code (bounds.map (Block.ofBounds code)) k (Block.ofBounds code b)) :
    (k, l) ∈ Links.edges code (bounds.map (Block.ofBounds code)) := by
  rw [Links.mem_edges]
  refine ⟨Block.ofBounds code b, ?_, h⟩
  rw [List.getElem?_map, hb]
  rfl

section Blocks
variable {code : List Instruction} {bounds : List Bounds}
  (htiles : Bounds.Tiles code.length 0 bounds) (hstraight : ∀ b ∈ bounds, Bounds.Straight code b)
include htiles hstraight

private theorem Target.exists_block {label : String} {line : Nat} (h : Target code label line) :
    ∃ (k : Nat) (b : Bounds), bounds[k]? = some b ∧ b.first = line ∧
      Links.labelled? (bounds.map (Block.ofBounds code)) label = some k := by
  obtain ⟨i, hi, hlabel⟩ := Option.bind_eq_some_iff.mp h.carries
  obtain ⟨k, b, hb, hfirst, hlast⟩ :=
    htiles.exists_block (Nat.zero_le line) (lt_of_labelAt h.carries)
  have hfirstEq : b.first = line := by
    by_contra hne
    have hno := (hstraight b (List.mem_of_getElem? hb)).label_first line i (by omega) hlast hi
    rw [hasLabel_of_label hlabel h.nonempty] at hno
    cases hno
  refine ⟨k, b, hb, hfirstEq, ?_⟩
  apply Links.labelled?_eq_some (b := Block.ofBounds code b)
  · rw [List.getElem?_map, hb]
    rfl
  · rw [label_ofBounds, hfirstEq]
    exact ⟨h.nonempty, h.carries⟩
  -- a later block with the label would begin on a later line that carries it
  · intro j c hkj hc hlabelc
    rw [List.getElem?_map] at hc
    obtain ⟨d, hd, rfl⟩ := Option.map_eq_some_iff.mp hc
    have hcarries := (label_ofBounds.mp hlabelc).2
    have hlt := htiles.last_lt_first hb hd hkj
    exact h.last d.first (lt_of_labelAt hcarries) (by omega) hcarries

private theorem exists_edge_of_jump {k line next : Nat} {b : Bounds} (hb : bounds[k]? = some b)
    (hfirst : b.first ≤ line) (hlast : line ≤ b.last) {i : Instruction} {label : String}
    (hi : code[line]? = some i) (hop : i.opcode.isJump = true) (hlabel : i.jumpTarget = some label)
    (htarget : Target code label next) :
    b.last = line ∧ ∃ (l : Nat) (c : Bounds), bounds[l]? = some c ∧ c.first = next ∧
      (k, l) ∈ Links.edges code (bounds.map (Block.ofBounds code)) := by
  have hlastEq : b.last = line := by
    by_contra hne
    have hno := (hstraight b (List.mem_of_getElem? hb)).jump_last line i hfirst (by omega) hi
    rw [hop] at hno
    cases hno
  subst hlastEq
  obtain ⟨l, c, hc, hcfirst, hnames⟩ := htarget.exists_block htiles hstraight
  exact ⟨rfl, l, c, hc, hcfirst,
    mem_edges_of_targets hb (Links.mem_targets_jump hi hlabel hnames k)⟩

/-- A step from a line of a block stays in the block, or leads from its last line to the first
line of a block along an edge. -/
theorem Step.within_or_across {line next : Nat} (h : Step code line next) {k : Nat} {b : Bounds}
    (hb : bounds[k]? = some b) (hfirst : b.first ≤ line) (hlast : line ≤ b.last) :
    (next = line + 1 ∧ next ≤ b.last) ∨
      (b.last = line ∧ ∃ (l : Nat) (c : Bounds), bounds[l]? = some c ∧ c.first = next ∧
        (k, l) ∈ Links.edges code (bounds.map (Block.ofBounds code))) := by
  cases h with
  | jump hi hop hlabel htarget =>
    right
    exact exists_edge_of_jump htiles hstraight hb hfirst hlast hi (by rw [hop]; rfl)
      (jumpTarget_eq_some_iff.mpr (.inl ⟨hop, hlabel⟩)) htarget
  | branch hi hop hlabel htarget =>
    right
    exact exists_edge_of_jump htiles hstraight hb hfirst hlast hi (by rw [hop]; rfl)
      (jumpTarget_eq_some_iff.mpr (.inr ⟨hop, hlabel⟩)) htarget
  | next hi hjump hret hend hline =>
    by_cases hin : line + 1 ≤ b.last
    · exact .inl ⟨rfl, hin⟩
    · have hlastEq : b.last = line := by omega
      subst hlastEq
      obtain ⟨c, hc, hcfirst⟩ := htiles.exists_next hb hline
      have hlength : k + 1 < (bounds.map (Block.ofBounds code)).length := by
        rw [List.length_map]
        exact (List.getElem?_eq_some_iff.mp hc).1
      exact .inr ⟨rfl, k + 1, c, hc, hcfirst,
        mem_edges_of_targets hb (Links.mem_targets_next hi hjump hret hend hlength)⟩

end Blocks

end Control

end RegisterColoring
