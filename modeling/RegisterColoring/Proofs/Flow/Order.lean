import RegisterColoring.Proofs.Flow.Built

namespace RegisterColoring

/-- Every variable has its lines in ascending order, none of them after `line`. -/
structure Mentions.OrderedTo (m : Mentions) (line : Nat) : Prop where
  ascending : ∀ id, (m.linesOf.getD id []).Pairwise (· < ·)
  le : ∀ id, ∀ l ∈ m.linesOf.getD id [], l ≤ line

private theorem Mentions.OrderedTo.record {m : Mentions} {first line : Nat} (h : m.OrderedTo line)
    (hagree : m.Agree first) (id : Nat) : (m.record first line id).OrderedTo line := by
  have hlines := getD_linesOf_record m first line id
  constructor
  · intro id'
    rw [hlines]
    split
    · next hnew =>
      rcases hnew with ⟨hfresh, rfl⟩
      refine List.pairwise_append.mpr ⟨h.ascending id, List.pairwise_singleton _ _, ?_⟩
      intro l hl l' hl'
      -- the line itself is not on record yet, so all that is there comes before it
      have hne : l ≠ line := by
        rintro rfl
        have hon := ((hagree.lines id l).mp hl).2
        simp [hon] at hfresh
      have hle := h.le id l hl
      rw [List.mem_singleton.mp hl']
      omega
    · exact h.ascending id'
  · intro id' l hl
    rw [hlines] at hl
    split at hl
    · rcases List.mem_append.mp hl with hl | hl
      · exact h.le id' l hl
      · simp_all
    · exact h.le id' l hl

namespace Block

structure RecordedTo (b : Block) (line : Nat) : Prop where
  hasLine : ∀ l ∈ b.lines, b.HasLine l
  agrees : b.Agrees
  ordered : ∀ access, (b.mentions access).OrderedTo line

private theorem RecordedTo.mono {b : Block} {line later : Nat} (h : b.RecordedTo line)
    (hle : line ≤ later) : b.RecordedTo later where
  hasLine := h.hasLine
  agrees := h.agrees
  ordered access := by
    refine ⟨(h.ordered access).ascending, ?_⟩
    intro id l hl
    exact Nat.le_trans ((h.ordered access).le id l hl) hle

private theorem recordedTo_ofBounds (code : List Instruction) (c : Bounds) :
    (ofBounds code c).RecordedTo c.first where
  hasLine := hasLine_ofBounds code c
  agrees := agrees_ofBounds code c
  ordered access := by
    have hempty : ((ofBounds code c).mentions access).linesOf = ∅ := by cases access <;> rfl
    constructor <;> simp [hempty]

private theorem lines_record (b : Block) (access : Access) (line id : Nat) :
    (b.record access line id).lines = b.lines := by
  cases access <;> rfl

private theorem RecordedTo.record {b : Block} {line : Nat} (h : b.RecordedTo line)
    (hline : line ∈ b.lines) (access : Access) (id : Nat) :
    (b.record access line id).RecordedTo line where
  hasLine l hl := by
    rw [lines_record] at hl
    have hb := h.hasLine l hl
    refine ⟨by rw [first_record]; exact hb.1, fun access' => ?_⟩
    have hsize := hb.2 access'
    rw [mentions_record, first_record]
    split <;> simpa using hsize
  agrees access' := by
    have hroom := h.hasLine line hline
    rw [mentions_record, first_record]
    split
    · exact (h.agrees access').record hroom.1 (hroom.2 access') id
    · exact h.agrees access'
  ordered access' := by
    rw [mentions_record]
    split
    · exact (h.ordered access').record (h.agrees access') id
    · exact h.ordered access'

/-- Every variable has its lines on record in ascending order. -/
def Ascends (b : Block) : Prop :=
  ∀ access id, ((b.mentions access).linesOf.getD id []).Pairwise (· < ·)

end Block

namespace Recorded

private theorem recordedTo_accesses (t : SymbolTable) (function : String) {line : Nat}
    (todo : List (Access × Variable)) (vars : Numbering) {b : Block} (h : b.RecordedTo line)
    (hline : line ∈ b.lines) :
    (accesses t function line todo vars b).value.RecordedTo line ∧
      (accesses t function line todo vars b).value.lines = b.lines := by
  induction todo generalizing vars b with
  | nil => exact ⟨h, rfl⟩
  | cons head todo ih =>
    rw [accesses]
    split
    · have hlines := b.lines_record head.1 line (vars.intern head.2).1
      have hrest := ih (vars.intern head.2).2 (h.record hline head.1 (vars.intern head.2).1)
        (hlines ▸ hline)
      exact ⟨hrest.1, hrest.2.trans hlines⟩
    · exact ⟨h, rfl⟩

/-- Lines that follow each other are recorded in their order, also if one of them fails. -/
theorem recordedTo_lines (t : SymbolTable) (f : Function) (count line : Nat) (vars : Numbering)
    {b : Block} (h : b.RecordedTo line) (hlines : ∀ l ∈ List.range' line count, l ∈ b.lines) :
    (lines t f (List.range' line count) vars b).value.RecordedTo (line + count) := by
  induction count generalizing line vars b with
  | zero => exact h
  | succ count ih =>
    rw [List.range'_succ] at hlines ⊢
    rw [lines]
    split
    · exact h.mono (by omega)
    · next i hi =>
      have hfirst := recordedTo_accesses t f.name i.accesses vars h (hlines line (by simp))
      split
      · next vars' b' hok =>
        rw [hok] at hfirst
        have hrest := ih (line + 1) vars' (hfirst.1.mono (Nat.le_succ line))
          (fun l hl => hfirst.2 ▸ hlines l (by simp [hl]))
        rwa [Nat.add_assoc, Nat.add_comm 1] at hrest
      · exact hfirst.1.mono (by omega)

private theorem recordedTo_blocks (t : SymbolTable) (f : Function) (todo : List Block)
    (vars : Numbering) (h : ∀ b ∈ todo, b.RecordedTo b.first) :
    ∀ b ∈ (blocks t f todo vars).value, ∃ line, b.RecordedTo line := by
  induction todo generalizing vars with
  | nil => simp [blocks]
  | cons b todo ih =>
    have hb := recordedTo_lines t f (b.last + 1 - b.first) b.first vars (h b (by simp))
      (fun l hl => hl)
    have hrest : ∀ c ∈ todo, c.RecordedTo c.first := fun c hc => h c (by simp [hc])
    rw [blocks]
    change (lines t f b.lines vars b).value.RecordedTo _ at hb
    split
    · next vars' b' hok =>
      rw [hok] at hb
      intro c hc
      rcases List.mem_cons.mp hc with rfl | hc
      · exact ⟨_, hb⟩
      · exact ih vars' hrest c hc
    · next vars' b' e hstop =>
      rw [hstop] at hb
      intro c hc
      rcases List.mem_cons.mp hc with rfl | hc
      · exact ⟨_, hb⟩
      · exact ⟨_, hrest c hc⟩

end Recorded

namespace FlowGraph

theorem ofBounds_ascends {f : Function} {t : SymbolTable} {bounds : List Bounds} {g : FlowGraph}
    (h : ofBounds f t bounds = .ok g) : ∀ b ∈ g.blocks, b.Ascends := by
  have hstart : ∀ b ∈ bounds.map (Block.ofBounds f.code), b.RecordedTo b.first := by
    intro b hb
    rcases List.mem_map.mp hb with ⟨c, _, rfl⟩
    exact Block.recordedTo_ofBounds f.code c
  have hend := Recorded.recordedTo_blocks t f _ .empty hstart
  rw [(record_eq_ok h).2.2] at hend
  intro b hb access
  rcases hend b (Array.mem_toList_iff.mpr hb) with ⟨line, hline⟩
  exact (hline.ordered access).ascending

theorem Built.ascends {f : Function} {t : SymbolTable} {g : FlowGraph} (h : g.Built f t) :
    ∀ b ∈ g.blocks, b.Ascends :=
  h.exists_ofBounds.elim fun _ => ofBounds_ascends

theorem SameRecords.ascends {g g' : FlowGraph} (hs : SameRecords g g')
    (h : ∀ b ∈ g.blocks, b.Ascends) : ∀ b ∈ g'.blocks, b.Ascends := by
  intro b' hb'
  rcases hs.exists_block hb' with ⟨b, hb, he⟩
  exact Block.eq_of_skeleton Block.Ascends (fun _ => rfl) he ▸ h b hb

end FlowGraph

end RegisterColoring
