import RegisterColoring.Proofs.Live.Intervals
import Mathlib.Data.Nat.Init
/-!
# Exact live intervals

Liveness from line to line, read from the instructions of a block and the variables that are live
on its exit. The merged ranges of a variable hold the lines at which it is live in this sense and
no others.
-/
namespace RegisterColoring

namespace Control
variable (code : List Instruction) (v : Variable) (last : Nat) (out : Prop)

mutual

/-- The variable is live on entry of a line of a block that ends with line `last` and on whose exit
it is live if `out` holds. -/
def LiveOnEntry (line : Nat) : Prop :=
  Uses code line v ∨ (LiveOnExit line ∧ ¬ Defines code line v)
termination_by (last - line, 1)

def LiveOnExit (line : Nat) : Prop :=
  if line < last then LiveOnEntry (line + 1) else out
termination_by (last - line, 0)

end

end Control

namespace FlowGraph

namespace Describes
variable {g : FlowGraph} {f : Function} {bounds : List Bounds} {b : Block} {v : Variable}
  {id line : Nat}

private theorem liveOnEntry_iff (h : g.Describes f bounds) (hb : b ∈ g.blocks)
    (hid : g.vars.var? id = some v) (hline : line ∈ b.lines)
    (hexit : b.LiveLeaving id line ↔
      Control.LiveOnExit f.code v b.last (id ∈ b.liveOut) line) :
    b.LiveEntering id line ↔ Control.LiveOnEntry f.code v b.last (id ∈ b.liveOut) line := by
  rw [Control.LiveOnEntry, Block.liveEntering_iff (Block.mem_lines.mp hline).2, hexit,
    h.mem_idsAt_iff hb hline hid, h.mem_idsAt_iff hb hline hid, Control.accesses_use,
    Control.accesses_define]

/-- The records of a block lead to the same lines as its instructions. -/
theorem liveOnExit_iff (h : g.Describes f bounds) (hb : b ∈ g.blocks)
    (hid : g.vars.var? id = some v) (hline : line ∈ b.lines) :
    b.LiveLeaving id line ↔ Control.LiveOnExit f.code v b.last (id ∈ b.liveOut) line := by
  -- upwards from the last line
  obtain ⟨hfirst, hlast⟩ := Block.mem_lines.mp hline
  induction hlast using Nat.decreasingInduction with
  | self =>
    rw [Control.LiveOnExit, if_neg (Nat.lt_irrefl _), Block.liveLeaving_last]
  | of_succ line hlt ih =>
    have hnext : line + 1 ∈ b.lines := Block.mem_lines.mpr ⟨by omega, hlt⟩
    rw [Control.LiveOnExit, if_pos hlt]
    exact h.liveOnEntry_iff hb hid hnext (ih hnext (by omega))

end Describes

/-- The live intervals of a variable hold exactly the lines on whose entry or exit it is live. -/
theorem isLiveAt_iff_liveOnLine {f : Function} {t : SymbolTable} {g : FlowGraph}
    (hg : g.Built f t) {id : Nat} {v : Variable} (hid : g.analyze.1.vars.var? id = some v) :
    ∃ info, g.analyze.1.info? id = some info ∧ ∀ line, info.isLiveAt line = true ↔
      line < f.code.length ∧ ∃ b ∈ g.analyze.1.blocks, line ∈ b.lines ∧
        (Control.LiveOnEntry f.code v b.last (id ∈ b.liveOut) line ∨
          Control.LiveOnExit f.code v b.last (id ∈ b.liveOut) line) := by
  obtain ⟨bounds, hdescribes⟩ := hg.describes
  have hsets := hdescribes.analyzeSets.toDescribes
  have hascends := g.sameRecords_analyzeSets.ascends hg.ascends
  obtain ⟨info, hinfo, hlive⟩ := hsets.exists_info hascends (Numbering.var?_lt_size hid)
  have hside : ∀ b ∈ g.analyzeSets.1.blocks, ∀ line ∈ b.lines,
      (b.LiveEntering id line ∨ b.LiveLeaving id line ↔
        Control.LiveOnEntry f.code v b.last (id ∈ b.liveOut) line ∨
          Control.LiveOnExit f.code v b.last (id ∈ b.liveOut) line) := by
    intro b hb line hline
    have hexit := hsets.liveOnExit_iff hb hid hline
    exact or_congr (hsets.liveOnEntry_iff hb hid hline hexit) hexit
  refine ⟨info, hinfo, ?_⟩
  intro line
  rw [hlive]
  constructor
  · intro hblock
    rcases hblock with ⟨b, hb, hline, hentry⟩
    have hmem : { b with ranges := b.localRanges } ∈ g.analyze.1.blocks := Array.mem_map_of_mem hb
    exact ⟨hsets.lt_length_of_mem_lines hb hline, _, hmem, hline, (hside b hb line hline).mp hentry⟩
  · intro hblock
    rcases hblock with ⟨_, c, hc, hline, hentry⟩
    obtain ⟨b, hb, rfl⟩ := Array.mem_map.mp hc
    exact ⟨b, hb, hline, (hside b hb line hline).mpr hentry⟩

/-- In the loop, `c` is needed on exit of the last line, and so already after the line that defines
it. -/
theorem spin_isLiveAt_iff : ∃ g info, FlowGraph.build spin spinTable = .ok g ∧
    g.analyze.1.vars.var? 2 = some ⟨2⟩ ∧ g.analyze.1.info? 2 = some info ∧
    (∃ b ∈ g.analyze.1.blocks, 2 ∈ b.lines ∧
      Control.LiveOnExit spin.code ⟨2⟩ b.last (2 ∈ b.liveOut) 2) ∧
    info.isLiveAt 2 = true := by
  obtain ⟨g, hg, hid, hblock⟩ : ∃ g, FlowGraph.build spin spinTable = .ok g ∧
      g.analyze.1.vars.var? 2 = some ⟨2⟩ ∧
      (g.analyze.1.blocks[1]?.map fun b : Block => (b.first, b.last, decide (2 ∈ b.liveOut))) =
        some (2, 3, true) := ⟨_, rfl, by decide +kernel, by decide +kernel⟩
  obtain ⟨b, hb, hsome⟩ := Option.map_eq_some_iff.mp hblock
  simp only [Prod.mk.injEq, decide_eq_true_eq] at hsome
  obtain ⟨hfirst, hlast, hout⟩ := hsome
  have hline : 2 ∈ b.lines := Block.mem_lines.mpr ⟨by omega, by omega⟩
  have hlive : Control.LiveOnExit spin.code ⟨2⟩ b.last (2 ∈ b.liveOut) 2 := by
    rw [hlast, Control.LiveOnExit, if_pos (by decide), Control.LiveOnEntry, Control.LiveOnExit,
      if_neg (by decide)]
    exact .inr ⟨hout, by decide⟩
  obtain ⟨info, hinfo, hiff⟩ := isLiveAt_iff_liveOnLine (.build hg) hid
  have hmem := Array.mem_of_getElem? hb
  exact ⟨g, info, hg, hid, hinfo, ⟨b, hmem, hline, hlive⟩,
    (hiff 2).mpr ⟨by decide, b, hmem, hline, .inr hlive⟩⟩

end FlowGraph

end RegisterColoring
