import RegisterColoring.Proofs.Live.Analysed
/-!
# Passes over a graph

The analyses start from the records of a graph. What other passes left in its blocks makes no
difference to what they find.
-/
namespace RegisterColoring

namespace Block

def withoutRanges (b : Block) : Block := { b with ranges := [] }

end Block

namespace FlowGraph

inductive Pass
  | sets
  | intervals
  | both

def pass (g : FlowGraph) : Pass → FlowGraph
  | .sets => g.analyzeSets.1
  | .intervals => g.analyzeIntervals
  | .both => g.analyze.1

/-- The graph without anything that an analysis found. -/
def bare (g : FlowGraph) : FlowGraph :=
  { g with blocks := g.blocks.map Block.skeleton, infos := [] }

private theorem bare_analyzeSets (g : FlowGraph) : g.analyzeSets.1.bare = g.bare := by
  have hblocks := g.partway_analyzeSets.skeleton
  simp only [bare, hblocks]
  rfl

private theorem bare_analyzeIntervals (g : FlowGraph) : g.analyzeIntervals.bare = g.bare := by
  simp only [bare, analyzeIntervals, Array.map_map]
  rfl

private theorem bare_pass (g : FlowGraph) (p : Pass) : (g.pass p).bare = g.bare := by
  cases p with
  | sets => exact g.bare_analyzeSets
  | intervals => exact g.bare_analyzeIntervals
  | both => exact g.analyzeSets.1.bare_analyzeIntervals.trans g.bare_analyzeSets

theorem bare_passes (passes : List Pass) (g : FlowGraph) : (passes.foldl pass g).bare = g.bare := by
  induction passes generalizing g with
  | nil => rfl
  | cons p passes ih => exact (ih (g.pass p)).trans (g.bare_pass p)

theorem vars_passes (passes : List Pass) (g : FlowGraph) :
    (passes.foldl pass g).vars = g.vars := by
  have hbare : (passes.foldl pass g).bare.vars = g.bare.vars := by rw [bare_passes]
  exact hbare

private theorem liveInOf_withoutRanges (blocks : Array Block) :
    liveInOf (blocks.map Block.withoutRanges) = liveInOf blocks := by
  funext id
  simp only [liveInOf, Array.getElem?_map]
  cases blocks[id]? <;> rfl

section Sweeps
variable {g g' : FlowGraph} (hsuccs : g'.succs = g.succs)
include hsuccs

private theorem visit_withoutRanges (blocks : Array Block) (changed : Bool) (id : Nat) :
    g'.visit (blocks.map Block.withoutRanges, changed) id =
      ((g.visit (blocks, changed) id).1.map Block.withoutRanges,
        (g.visit (blocks, changed) id).2) := by
  simp only [visit, Array.getElem?_map, hsuccs, liveInOf_withoutRanges]
  cases blocks[id]? with
  | none => rfl
  | some b =>
    simp only [Option.map_some]
    generalize VarSet.unions ((g.succs id).map (liveInOf blocks)) = out
    by_cases hsettled : b.liveIn = b.liveBefore out ∧ b.liveOut = out
    · rw [if_pos hsettled]
      exact if_pos hsettled
    · rw [if_neg hsettled, Array.map_setIfInBounds]
      exact if_neg hsettled

private theorem visits_withoutRanges (ids : List Nat) (blocks : Array Block) (changed : Bool) :
    ids.foldl g'.visit (blocks.map Block.withoutRanges, changed) =
      ((ids.foldl g.visit (blocks, changed)).1.map Block.withoutRanges,
        (ids.foldl g.visit (blocks, changed)).2) := by
  induction ids generalizing blocks changed with
  | nil => rfl
  | cons id ids ih =>
    rw [List.foldl_cons, List.foldl_cons, visit_withoutRanges hsuccs]
    exact ih _ _

private theorem sweeps_withoutRanges (limit : Nat) (blocks : Array Block) :
    g'.sweeps limit (blocks.map Block.withoutRanges) =
      ((g.sweeps limit blocks).1.map Block.withoutRanges, (g.sweeps limit blocks).2) := by
  induction limit generalizing blocks with
  | zero => rfl
  | succ limit ih =>
    have hsweep : g'.sweep (blocks.map Block.withoutRanges) =
        ((g.sweep blocks).1.map Block.withoutRanges, (g.sweep blocks).2) := by
      rw [sweep, Array.size_map]
      exact visits_withoutRanges hsuccs _ blocks false
    rw [sweeps, sweeps, hsweep]
    rcases g.sweep blocks with ⟨next, changed⟩
    cases changed with
    | false => rfl
    | true => simp only [ih next]

end Sweeps

/-- The analyses find the same in a graph without the findings of earlier ones. -/
theorem analyze_bare (g : FlowGraph) : g.bare.analyze = g.analyze := by
  have hstart : g.bare.blocks.map Block.withoutLiveness =
      (g.blocks.map Block.withoutLiveness).map Block.withoutRanges := by
    simp only [bare, Array.map_map]
    rfl
  have hlimit : g.bare.sweepLimit = g.sweepLimit := by simp [sweepLimit, bare]
  have hsweeps : g.bare.sweeps g.bare.sweepLimit (g.bare.blocks.map Block.withoutLiveness) =
      (g.analyzeSets.1.blocks.map Block.withoutRanges, g.analyzeSets.2) := by
    have hsuccs : g.bare.succs = g.succs := rfl
    rw [hstart, hlimit]
    exact sweeps_withoutRanges hsuccs _ _
  simp only [analyze, analyzeSets, hsweeps, analyzeIntervals, Array.map_map]
  rfl

/-- The graphs that a caller can have: built ones, and what analyses and further records make
of them. -/
inductive Obtained : FlowGraph → Prop
  | built {f : Function} {t : SymbolTable} {g : FlowGraph} (h : g.Built f t) : Obtained g
  | pass {g : FlowGraph} (h : Obtained g) (p : Pass) : Obtained (g.pass p)
  | record {g : FlowGraph} (h : Obtained g) (f : Function) (t : SymbolTable) :
    Obtained (g.record f t).1

theorem Obtained.nodup_vars {g : FlowGraph} (h : g.Obtained) : g.vars.toList.Nodup := by
  induction h with
  | built hg =>
    obtain ⟨_, hdescribes⟩ := hg.describes
    exact hdescribes.nodup
  | pass _ p ih => exact (vars_passes [p] _).symm ▸ ih
  | record _ f t ih => exact Recorded.nodup_blocks t f _ ih

end FlowGraph

end RegisterColoring
