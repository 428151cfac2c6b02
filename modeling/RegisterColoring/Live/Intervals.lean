import RegisterColoring.Live.Sets
/-!
# Live intervals

Within a block each value of a variable has one range, from the line that defines it
to the line after its last use. The ranges of all blocks are merged per variable.
-/
namespace RegisterColoring

/-- A backward walk over the lines of one variable: where the value ends that is live at
this point, if one is, and the ranges found below. -/
structure Walk where
  stop : Option Nat
  found : List Range

namespace Walk

def define (w : Walk) (line : Nat) : Walk :=
  match w.stop with
  | some stop => ⟨none, ⟨line, stop⟩ :: w.found⟩
  | none => w

def use (w : Walk) (line : Nat) : Walk :=
  match w.stop with
  | some _ => w
  | none => ⟨some (line + 1), w.found⟩

/-- Pass the uses and definitions, given from the last to the first. A line that does both
defines after it uses. -/
def back (w : Walk) (uses defs : List Nat) : Walk :=
  match uses, defs with
  | [], [] => w
  | u :: us, [] => (w.use u).back us []
  | [], d :: ds => (w.define d).back [] ds
  | u :: us, d :: ds =>
    if u < d then (w.define d).back (u :: us) ds
    else if d < u then (w.use u).back us (d :: ds)
    else ((w.define d).use u).back us ds
termination_by uses.length + defs.length

def finish (w : Walk) (first : Nat) : List Range :=
  match w.stop with
  | some stop => ⟨first, stop⟩ :: w.found
  | none => w.found

end Walk

/-- The live ranges of a variable within a block, by ascending start. -/
def Block.rangesOf (b : Block) (v : Nat) : List Range :=
  let start : Walk := ⟨if v ∈ b.liveOut then some (b.last + 1) else none, []⟩
  (start.back (b.uses.linesOf.getD v []).reverse (b.defs.linesOf.getD v []).reverse).finish b.first

def Block.localRanges (b : Block) : List (Nat × List Range) :=
  b.referenced.toList.filterMap fun v =>
    if (b.rangesOf v).isEmpty then none else some (v, b.rangesOf v)

namespace FlowGraph

def rangesOf (blocks : Array Block) (v : Nat) : List Range :=
  blocks.toList.flatMap fun b => (b.ranges.lookup v).getD []

def analyzeIntervals (g : FlowGraph) : FlowGraph :=
  let blocks := g.blocks.map fun b => { b with ranges := b.localRanges }
  let infos := (List.range g.vars.size).map fun v => (LiveInfo.empty.add (rangesOf blocks v)).merge
  { g with blocks, infos }

/-- Find live sets and live ranges, and count the sweeps. -/
def analyze (g : FlowGraph) : FlowGraph × Nat :=
  let (g, count) := g.analyzeSets
  (g.analyzeIntervals, count)

end FlowGraph

end RegisterColoring
