import RegisterColoring.Proofs.Flow.Control
import RegisterColoring.Proofs.Live.Timelines
/-!
# Liveness along a run

A run of the code that ends at a use of a variable, and on which the variable is not defined
before, finds the variable live on entry of each of its lines. One step is followed within a
block by the lines and across an edge by the live sets.
-/
namespace RegisterColoring

theorem Accesses.lt_length {code : List Instruction} {access : Access} {line : Nat} {v : Variable}
    (h : Accesses code access line v) : line < code.length := by
  obtain ⟨i, hi, _⟩ := h
  exact (List.getElem?_eq_some_iff.mp hi).1

namespace Control

def Defines (code : List Instruction) (line : Nat) (v : Variable) : Prop :=
  ∃ i, code[line]? = some i ∧ v ∈ i.defs

def Uses (code : List Instruction) (line : Nat) (v : Variable) : Prop :=
  ∃ i, code[line]? = some i ∧ v ∈ i.uses

instance (code : List Instruction) (line : Nat) (v : Variable) : Decidable (Defines code line v) :=
  decidable_of_iff (code[line]?.any fun i => v ∈ i.defs) (by simp [Defines, Option.any_eq_true])

instance (code : List Instruction) (line : Nat) (v : Variable) : Decidable (Uses code line v) :=
  decidable_of_iff (code[line]?.any fun i => v ∈ i.uses) (by simp [Uses, Option.any_eq_true])

theorem accesses_define {code : List Instruction} {line : Nat} {v : Variable} :
    Accesses code .define line v ↔ Defines code line v := by
  simp [Accesses, Defines, Instruction.accesses]

theorem accesses_use {code : List Instruction} {line : Nat} {v : Variable} :
    Accesses code .use line v ↔ Uses code line v := by
  simp [Accesses, Uses, Instruction.accesses]

/-- A run of `n` steps to a use of the variable, which no line before that defines. -/
structure Carries (code : List Instruction) (v : Variable) (n : Nat) (line : Nat → Nat) : Prop where
  steps : ∀ k < n, Step code (line k) (line (k + 1))
  used : Uses code (line n) v
  kept : ∀ k < n, ¬ Defines code (line k) v

private theorem Carries.tail {code : List Instruction} {v : Variable} {n : Nat} {line : Nat → Nat}
    (h : Carries code v (n + 1) line) : Carries code v n fun k => line (k + 1) where
  steps k hk := h.steps (k + 1) (by omega)
  used := h.used
  kept k hk := h.kept (k + 1) (by omega)

def spinTurns (k : Nat) : Nat := [1, 2, 3, 2, 3].getD k 0

theorem spin_carries : Carries spin.code ⟨0⟩ 4 spinTurns where
  steps k hk := by
    have hbranch : Step spin.code 3 2 :=
      .branch rfl rfl rfl ⟨by decide, rfl, by decide⟩
    have hnext : ∀ line < 3, Step spin.code line (line + 1) := by
      intro line hline
      obtain rfl | rfl | rfl : line = 0 ∨ line = 1 ∨ line = 2 := by omega
      all_goals exact .next rfl (by decide) (by decide) (by decide) (by decide)
    obtain rfl | rfl | rfl | rfl : k = 0 ∨ k = 1 ∨ k = 2 ∨ k = 3 := by omega
    · exact hnext 1 (by decide)
    · exact hnext 2 (by decide)
    · exact hbranch
    · exact hnext 2 (by decide)
  used := by decide
  kept := by decide

end Control

namespace FlowGraph
variable {g : FlowGraph} {f : Function} {bounds : List Bounds}

namespace Describes

theorem mem_idsAt_iff (h : g.Describes f bounds) {b : Block} (hb : b ∈ g.blocks) {line id : Nat}
    (hline : line ∈ b.lines) {v : Variable} (hid : g.vars.var? id = some v) (access : Access) :
    id ∈ b.idsAt access line ↔ Accesses f.code access line v := by
  rw [h.mem_idsAt b hb]
  constructor
  · intro hmem
    obtain ⟨_, w, hw, hidw⟩ := hmem
    rw [hid, Option.some.injEq] at hidw
    exact hidw ▸ hw
  · intro hv
    exact ⟨hline, v, hv, hid⟩

theorem exists_id (h : g.Describes f bounds) {access : Access} {line : Nat} {v : Variable}
    (hv : Accesses f.code access line v) : ∃ id, g.vars.var? id = some v := by
  obtain ⟨k, b, hb, hline⟩ := h.exists_block_of_lt hv.lt_length
  exact h.named b (Array.mem_of_getElem? hb) access line hline v hv

end Describes

theorem Analysed.mem_liveOut_of_entering (h : g.Analysed f bounds) {k l : Nat} {b c : Block}
    (hb : g.blocks[k]? = some b) (hc : g.blocks[l]? = some c) (he : (k, l) ∈ g.edges) {id : Nat}
    (hin : c.LiveEntering id c.first) : id ∈ b.liveOut := by
  have hlive := h.mem_liveIn_of_entering (Array.mem_of_getElem? hc) hin
  exact (h.mem_liveOut k b hb id).mpr ⟨l, mem_succs.mpr he, mem_liveInOf.mpr ⟨c, hc, hlive⟩⟩

section Runs
variable (h : g.Analysed f bounds) (hstraight : ∀ b ∈ bounds, Bounds.Straight f.code b)
include h hstraight

/-- What is live on entry of a line is live on exit of the line that control came from. -/
theorem Analysed.liveLeaving_of_step {line next id : Nat} (hstep : Control.Step f.code line next)
    (hnext : ∀ (l : Nat) (c : Block), g.blocks[l]? = some c → next ∈ c.lines →
      c.LiveEntering id next)
    {k : Nat} {b : Block} (hb : g.blocks[k]? = some b) (hline : line ∈ b.lines) :
    b.LiveLeaving id line := by
  have hbounds := h.getElem?_bounds_of_block hb
  obtain ⟨hfirst, hlast⟩ := Block.mem_lines.mp hline
  rcases hstep.within_or_across h.tiles hstraight hbounds hfirst hlast with
    ⟨rfl, hle⟩ | ⟨hend, l, c, hc, hcfirst, he⟩
  · exact hnext k b hb (Block.mem_lines.mpr ⟨Nat.le_succ_of_le hfirst, hle⟩)
  · rw [h.getElem?_bounds] at hc
    obtain ⟨d, hd, rfl⟩ := Option.map_eq_some_iff.mp hc
    change d.first = next at hcfirst
    change b.last = line at hend
    subst hcfirst
    subst hend
    have hdlines : d.first ∈ d.lines :=
      Block.mem_lines.mpr ⟨Nat.le_refl _, h.first_le_last d (Array.mem_of_getElem? hd)⟩
    rw [Block.liveLeaving_last]
    exact h.mem_liveOut_of_entering hb hd (h.edges_eq ▸ he) (hnext l d hd hdlines)

theorem Analysed.liveEntering_of_carries {v : Variable} {id : Nat}
    (hid : g.vars.var? id = some v) {n : Nat} {line : Nat → Nat}
    (hrun : Control.Carries f.code v n line) {k : Nat} {b : Block} (hb : g.blocks[k]? = some b)
    (hline : line 0 ∈ b.lines) : b.LiveEntering id (line 0) := by
  -- backwards from the use; the block is general since the run may leave it
  induction n generalizing line k b with
  | zero =>
    rw [Block.liveEntering_iff (Block.mem_lines.mp hline).2,
      h.mem_idsAt_iff (Array.mem_of_getElem? hb) hline hid, Control.accesses_use]
    exact .inl hrun.used
  | succ n ih =>
    have hleave : b.LiveLeaving id (line 0) :=
      h.liveLeaving_of_step hstraight (hrun.steps 0 (Nat.succ_pos n))
        (fun l c hc hnext => ih hrun.tail hc hnext) hb hline
    rw [Block.liveEntering_iff (Block.mem_lines.mp hline).2,
      h.mem_idsAt_iff (Array.mem_of_getElem? hb) hline hid .define, Control.accesses_define]
    exact .inr ⟨hleave, hrun.kept 0 (Nat.succ_pos n)⟩

/-- A variable that a run carries on is live on exit of the run's first line. -/
theorem Analysed.liveLeaving_of_carries {v : Variable} {id : Nat}
    (hid : g.vars.var? id = some v) {n : Nat} {line : Nat → Nat}
    (hrun : Control.Carries f.code v (n + 1) line) {k : Nat} {b : Block}
    (hb : g.blocks[k]? = some b) (hline : line 0 ∈ b.lines) : b.LiveLeaving id (line 0) :=
  h.liveLeaving_of_step hstraight (hrun.steps 0 (Nat.succ_pos n))
    (fun _ _ hc hnext => h.liveEntering_of_carries hstraight hid hrun.tail hc hnext) hb hline

end Runs

end FlowGraph

end RegisterColoring
