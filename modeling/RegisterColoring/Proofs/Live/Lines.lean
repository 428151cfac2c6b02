import RegisterColoring.Proofs.Live.FixedPoint

namespace RegisterColoring

namespace Block

/-- The variable is live above the lines `below`, after which the block ends. -/
def LiveAbove (b : Block) (v : Nat) : List Nat → Prop
  | [] => v ∈ b.liveOut
  | line :: below =>
    v ∈ b.idsAt .use line ∨ (b.LiveAbove v below ∧ v ∉ b.idsAt .define line)

def LiveEntering (b : Block) (v line : Nat) : Prop :=
  b.LiveAbove v (List.range' line (b.last + 1 - line))

def LiveLeaving (b : Block) (v line : Nat) : Prop := b.LiveEntering v (line + 1)

theorem liveLeaving_last (b : Block) (v : Nat) : b.LiveLeaving v b.last ↔ v ∈ b.liveOut := by
  rw [LiveLeaving, LiveEntering, Nat.sub_self]
  rfl

theorem liveEntering_iff {b : Block} {line : Nat} (h : line ≤ b.last) (v : Nat) :
    b.LiveEntering v line ↔
      v ∈ b.idsAt .use line ∨ (b.LiveLeaving v line ∧ v ∉ b.idsAt .define line) := by
  have hsub : b.last + 1 - line = b.last + 1 - (line + 1) + 1 := by omega
  rw [LiveEntering, hsub, List.range'_succ]
  exact Iff.rfl

end Block

end RegisterColoring
