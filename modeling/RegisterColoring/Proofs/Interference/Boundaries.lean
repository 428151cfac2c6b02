import RegisterColoring.Proofs.Interference.Edges
import RegisterColoring.Proofs.Live.Runs
/-!
# Sweeps and live sets at the boundaries of a block

The sweep of a block ends at its first line with what the lines need from before the block. The
live sets count every use, so they also have the variables that a block defines before it uses
them. What one block needs is in the set that the sweep of every block before it starts from.
-/
namespace RegisterColoring

namespace Timeline
variable {t : Timeline}

/-- Some line of the block uses the variable, and every line that does so comes after one that
defines it. -/
def DefinedBeforeUse (t : Timeline) : Prop :=
  (∃ u, t.uses u) ∧ ∀ u, t.uses u → ∃ d, d < u ∧ t.defines d

/-- What counts as live on entry of the block although no line needs it from before. -/
theorem definedBeforeUse_iff : t.DefinedBeforeUse ↔
    ((∃ u, t.uses u) ∨ (t.out ∧ ∀ d, ¬ t.defines d)) ∧ ¬ ∃ stop, t.Needed t.first stop := by
  rw [exists_needed_first_iff]
  constructor
  · intro h
    refine ⟨.inl h.1, ?_⟩
    intro hneeded
    rcases hneeded with ⟨u, hu, hbefore⟩ | ⟨_, hnone⟩
    · obtain ⟨d, hlt, hd⟩ := h.2 u hu
      exact hbefore d hlt hd
    · obtain ⟨u, hu⟩ := h.1
      obtain ⟨d, _, hd⟩ := h.2 u hu
      exact hnone d hd
  · intro h
    obtain ⟨hlive, hneeded⟩ := h
    simp only [not_or, not_exists, not_and] at hneeded
    constructor
    · rcases hlive with huses | ⟨hout, hnone⟩
      · exact huses
      · exact absurd hnone (hneeded.2 hout)
    · intro u hu
      have hbefore := hneeded.1 u hu
      simpa using hbefore

end Timeline

namespace InterferenceGraph.Sweep

def liveThrough (b : Block) (live : VarSet) (line : Nat) : VarSet :=
  ((b.usesAt? line).getD []).foldl VarSet.insert (((b.defsAt? line).getD []).foldl VarSet.erase live)

private theorem liveThrough_live (b : Block) (s : Sweep) (line : Nat) :
    liveThrough b s.live line = (Sweep.line b s line).live := by
  have hdefine : ∀ (ds : List Nat) (s : Sweep),
      ds.foldl VarSet.erase s.live = (ds.foldl define s).live :=
    fun ds s => List.foldl_hom Sweep.live (fun _ _ => rfl)
  have huse : ∀ (us : List Nat) (s : Sweep),
      us.foldl VarSet.insert s.live = (us.foldl use s).live :=
    fun us s => List.foldl_hom Sweep.live (fun _ _ => rfl)
  rw [liveThrough, hdefine, huse, Sweep.line]

/-- The graph that a sweep adds to has no part in what is live. -/
theorem live_block (g : InterferenceGraph) (b : Block) :
    (Sweep.block g b).live = b.lines.reverse.foldl (liveThrough b) b.liveOut := by
  unfold Sweep.block
  exact (List.foldl_hom Sweep.live (liveThrough_live b)).symm

private theorem mem_live_block {b : Block} (hb : b.first ≤ b.last) (g : InterferenceGraph)
    (v : Nat) :
    v ∈ (Sweep.block g b).live ↔ b.LiveEntering v b.first := by
  rw [live_block, ← live_block (empty 0)]
  exact (block_spec hb (sized_empty 0)).2.1 v

end InterferenceGraph.Sweep

namespace FlowGraph
variable {g : FlowGraph} {f : Function} {bounds : List Bounds} {b : Block}

/-- After the analysis, the sweep of a block reaches its first line with variables that are live on
entry. The others that are live on entry are those that the block uses only below a definition of
its own. The sweep of each block that leads here starts from a set with what this one ends with. -/
theorem Built.sweeps_fit_live_sets {t : SymbolTable} (hg : g.Built f t) {id : Nat}
    (hb : g.analyze.1.blocks[id]? = some b) (graph : InterferenceGraph) :
    (∀ v ∈ (InterferenceGraph.Sweep.block graph b).live, v ∈ b.liveIn) ∧
    (∀ v, v ∈ b.liveIn ∧ v ∉ (InterferenceGraph.Sweep.block graph b).live ↔
      (b.timeline f.code g.vars v).DefinedBeforeUse) ∧
    ∀ source ∈ g.analyze.1.preds id, ∃ c, g.analyze.1.blocks[source]? = some c ∧
      (∀ other, InterferenceGraph.Sweep.block other c =
        c.lines.reverse.foldl (InterferenceGraph.Sweep.line c) ⟨other, c.liveOut⟩) ∧
      ∀ v ∈ (InterferenceGraph.Sweep.block graph b).live, v ∈ c.liveOut := by
  obtain ⟨bounds, hdescribes⟩ := hg.describes
  have h := hdescribes.analyze
  have hmem := Array.mem_of_getElem? hb
  have hle := h.first_le_last b hmem
  have hlive := InterferenceGraph.Sweep.mem_live_block hle graph
  refine ⟨?_, ?_, ?_⟩
  · intro v hv
    exact h.mem_liveIn_of_entering hmem ((hlive v).mp hv)
  · intro v
    rw [h.mem_liveIn_iff hmem, hlive, h.liveEntering_iff_needed hmem v (by omega),
      Timeline.definedBeforeUse_iff]
    rfl
  · intro source hsource
    have hedge := mem_preds.mp hsource
    have hc := Array.getElem?_eq_getElem (h.edge_lt hedge).1
    refine ⟨_, hc, fun _ => rfl, ?_⟩
    intro v hv
    exact h.mem_liveOut_of_entering hc hb hedge ((hlive v).mp hv)

/-- The second block defines `c` before it uses it. The live sets have it on entry, the sweep has
not, and the first block keeps what the sweep needs. -/
theorem spin_sweeps_fit_live_sets : ∃ g b,
    FlowGraph.ofBounds spin spinTable [⟨0, 1⟩, ⟨2, 5⟩] = .ok g ∧
    g.analyze.1.blocks[1]? = some b ∧ b.liveIn.toList = [0, 1, 2] ∧
    (InterferenceGraph.Sweep.block (.empty 3) b).live.toList = [0, 1] ∧
    (b.timeline spin.code g.vars 2).DefinedBeforeUse ∧
    ¬ (b.timeline spin.code g.vars 1).DefinedBeforeUse ∧
    ∃ c, g.analyze.1.blocks[0]? = some c ∧ 0 ∈ c.liveOut ∧ 1 ∈ c.liveOut := by
  obtain ⟨g, hg, hblock, hedge⟩ : ∃ g,
      FlowGraph.ofBounds spin spinTable [⟨0, 1⟩, ⟨2, 5⟩] = .ok g ∧
      (g.analyze.1.blocks[1]?.map fun b : Block => (b.liveIn.toList,
        (InterferenceGraph.Sweep.block (.empty 3) b).live.toList)) = some ([0, 1, 2], [0, 1]) ∧
      0 ∈ g.analyze.1.preds 1 := ⟨_, rfl, by decide +kernel, by decide +kernel⟩
  obtain ⟨b, hb, hsets⟩ := Option.map_eq_some_iff.mp hblock
  simp only [Prod.mk.injEq] at hsets
  obtain ⟨hin, hout⟩ := hsets
  obtain ⟨_, hrest, hbefore⟩ := Built.sweeps_fit_live_sets (.ofBounds _ hg) hb (.empty 3)
  simp only [VarSet.mem_def, hin, hout] at hrest hbefore
  obtain ⟨c, hc, _, hstart⟩ := hbefore 0 hedge
  refine ⟨g, b, hg, hb, hin, hout, (hrest 2).mp (by decide), ?_, c, hc, ?_, ?_⟩
  · intro hone
    exact absurd ((hrest 1).mpr hone) (by decide)
  · exact hstart 0 (by decide)
  · exact hstart 1 (by decide)

end FlowGraph

end RegisterColoring
