import RegisterColoring.Flow.Graph
/-!
# Live sets of blocks

A variable is live on exit of a block if it is live on entry of a successor, and live
on entry if the block uses it, or if it is live on exit and the block does not define
it. The smallest sets with these properties are found by sweeping over the blocks
from the last to the first until a sweep changes nothing.
-/
namespace RegisterColoring

/-- Live on entry, from what is live on exit. Every use counts, also after a definition in
the same block. -/
def Block.liveBefore (b : Block) (out : VarSet) : VarSet :=
  b.uses.ids.union (out.filter fun v => !b.defs.linesOf.contains v)

def Block.withoutLiveness (b : Block) : Block := { b with liveIn := ∅, liveOut := ∅ }

namespace FlowGraph

def liveInOf (blocks : Array Block) (id : Nat) : VarSet := (blocks[id]?.map Block.liveIn).getD ∅

/-- Bring the sets of one block up to date and note whether they changed. -/
def visit (g : FlowGraph) (state : Array Block × Bool) (id : Nat) : Array Block × Bool :=
  match state.1[id]? with
  | none => state
  | some b =>
    let out := VarSet.unions ((g.succs id).map (liveInOf state.1))
    let entry := b.liveBefore out
    if b.liveIn = entry ∧ b.liveOut = out then state
    else (state.1.setIfInBounds id { b with liveIn := entry, liveOut := out }, true)

def sweep (g : FlowGraph) (blocks : Array Block) : Array Block × Bool :=
  (List.range blocks.size).reverse.foldl g.visit (blocks, false)

/-- Sweep until nothing changes, but at most `limit` times. The count includes the sweep
without a change. -/
def sweeps (g : FlowGraph) : Nat → Array Block → Array Block × Nat
  | 0, blocks => (blocks, 0)
  | limit + 1, blocks =>
    match g.sweep blocks with
    | (blocks, false) => (blocks, 1)
    | (blocks, true) =>
      let (blocks, count) := g.sweeps limit blocks
      (blocks, count + 1)

/-- A sweep with a change adds a variable to one of two sets of a block, so one more than
there are such pairs is enough. -/
def sweepLimit (g : FlowGraph) : Nat := 2 * g.blocks.size * g.vars.size + 1

/-- Find the live sets, whatever they were before, and count the sweeps. -/
def analyzeSets (g : FlowGraph) : FlowGraph × Nat :=
  let (blocks, count) := g.sweeps g.sweepLimit (g.blocks.map Block.withoutLiveness)
  ({ g with blocks }, count)

end FlowGraph

end RegisterColoring
