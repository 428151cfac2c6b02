import RegisterColoring.Proofs.Live.Analysed
import RegisterColoring.Proofs.Live.Lines
import Mathlib.Data.Nat.Init
/-!
# Timelines

For one variable, a block is a list of lines that define it or use it, and the variable may be live
on exit. The value that it has on entry of a line is needed up to a line that uses it, as long as no
line in between replaces it, or up to the end of the block.
-/
namespace RegisterColoring

/-- The lines of a block as one variable sees them. -/
structure Timeline where
  first : Nat
  last : Nat
  defines : Nat → Prop
  uses : Nat → Prop
  /-- The variable is live on exit of the last line. -/
  out : Prop
  defines_within : ∀ {line}, defines line → first ≤ line ∧ line ≤ last
  uses_within : ∀ {line}, uses line → first ≤ line ∧ line ≤ last

namespace Timeline

def Kept (t : Timeline) (start stop : Nat) : Prop :=
  ∀ line, start ≤ line → line < stop → ¬ t.defines line

/-- The value that the variable has on entry of a line is needed up to `stop`. -/
def Needed (t : Timeline) (line stop : Nat) : Prop :=
  (∃ u, line ≤ u ∧ t.uses u ∧ t.Kept line u ∧ stop = u + 1) ∨
    (t.out ∧ t.Kept line (t.last + 1) ∧ stop = t.last + 1)

structure NeededUntil (t : Timeline) (line stop : Nat) : Prop where
  needed : t.Needed line stop
  latest : ∀ s, t.Needed line s → s ≤ stop

variable {t : Timeline} {line stop : Nat}

private theorem kept_self (t : Timeline) (line : Nat) : t.Kept line line := by
  intro l hl hlt
  omega

private theorem kept_iff (h : line < stop) :
    t.Kept line stop ↔ ¬ t.defines line ∧ t.Kept (line + 1) stop := by
  constructor
  · intro hkept
    constructor
    · exact hkept line (Nat.le_refl line) h
    · intro l hl hlt
      exact hkept l (by omega) hlt
  · intro hkept l hl hlt
    by_cases he : l = line
    · simpa [he] using hkept.1
    · exact hkept.2 l (by omega) hlt

theorem needed_end_iff : t.Needed (t.last + 1) stop ↔ t.out ∧ stop = t.last + 1 := by
  have huse : ∀ u, t.last + 1 ≤ u → ¬ t.uses u := by
    intro u hle hu
    have := t.uses_within hu
    omega
  constructor
  · intro h
    rcases h with ⟨u, hle, hu, _⟩ | ⟨hout, _, hstop⟩
    · exact absurd hu (huse u hle)
    · exact ⟨hout, hstop⟩
  · intro h
    exact .inr ⟨h.1, t.kept_self _, h.2⟩

theorem needed_iff (h : line ≤ t.last) : t.Needed line stop ↔
    (t.uses line ∧ stop = line + 1) ∨ (¬ t.defines line ∧ t.Needed (line + 1) stop) := by
  constructor
  · intro hneeded
    rcases hneeded with ⟨u, hle, hu, hkept, hstop⟩ | ⟨hout, hkept, hstop⟩
    · rcases Nat.eq_or_lt_of_le hle with heq | hlt
      · subst heq
        exact .inl ⟨hu, hstop⟩
      · rw [kept_iff hlt] at hkept
        exact .inr ⟨hkept.1, .inl ⟨u, hlt, hu, hkept.2, hstop⟩⟩
    · rw [kept_iff (by omega)] at hkept
      exact .inr ⟨hkept.1, .inr ⟨hout, hkept.2, hstop⟩⟩
  · intro hneeded
    rcases hneeded with ⟨hu, hstop⟩ | ⟨hdef, hneeded⟩
    · exact .inl ⟨line, Nat.le_refl line, hu, t.kept_self line, hstop⟩
    · rcases hneeded with ⟨u, hle, hu, hkept, hstop⟩ | ⟨hout, hkept, hstop⟩
      · exact .inl ⟨u, by omega, hu, (kept_iff (by omega)).mpr ⟨hdef, hkept⟩, hstop⟩
      · exact .inr ⟨hout, (kept_iff (by omega)).mpr ⟨hdef, hkept⟩, hstop⟩

namespace Needed

theorem lt_stop (h : t.Needed line stop) {l : Nat} (hl : l ≤ line) (hlast : l ≤ t.last) :
    l < stop := by
  rcases h with ⟨u, hle, _, _, hstop⟩ | ⟨_, _, hstop⟩ <;> omega

theorem stop_le (h : t.Needed line stop) : stop ≤ t.last + 1 := by
  rcases h with ⟨u, _, hu, _, hstop⟩ | ⟨_, _, hstop⟩
  · have := t.uses_within hu
    omega
  · omega

theorem stop_le_of_defines (h : t.Needed line stop) {d : Nat} (hle : line ≤ d) (hd : t.defines d) :
    stop ≤ d + 1 := by
  rcases h with ⟨u, _, _, hkept, hstop⟩ | ⟨_, hkept, _⟩
  · have hu : ¬ d < u := fun hlt => hkept d hle hlt hd
    omega
  · have hlast := t.defines_within hd
    exact absurd hd (hkept d hle (by omega))

/-- What is needed has an end, since every later need lies within the block too. -/
theorem exists_until (h : t.Needed line stop) : ∃ s, t.NeededUntil line s := by
  induction hk : t.last + 1 - stop using Nat.strongRecOn generalizing stop with
  | ind k ih =>
    by_cases hlater : ∃ s, t.Needed line s ∧ stop < s
    · obtain ⟨s, hs, hlt⟩ := hlater
      have hle := hs.stop_le
      exact ih (t.last + 1 - s) (by omega) hs rfl
    · refine ⟨stop, h, ?_⟩
      intro s hs
      exact Nat.not_lt.mp fun hlt => hlater ⟨s, hs, hlt⟩

end Needed

/-- The value from before the block is needed if a use comes before all definitions, or if it is
live on exit and there is no definition. -/
theorem exists_needed_first_iff : (∃ stop, t.Needed t.first stop) ↔
    (∃ u, t.uses u ∧ ∀ d, d < u → ¬ t.defines d) ∨ (t.out ∧ ∀ d, ¬ t.defines d) := by
  constructor
  · intro h
    obtain ⟨stop, ⟨u, _, hu, hkept, _⟩ | ⟨hout, hkept, _⟩⟩ := h
    · left
      refine ⟨u, hu, ?_⟩
      intro d hlt hd
      exact hkept d (t.defines_within hd).1 hlt hd
    · right
      refine ⟨hout, ?_⟩
      intro d hd
      have hwithin := t.defines_within hd
      exact hkept d hwithin.1 (by omega) hd
  · intro h
    rcases h with ⟨u, hu, hbefore⟩ | ⟨hout, hnone⟩
    · exact ⟨u + 1, .inl ⟨u, (t.uses_within hu).1, hu, fun d _ => hbefore d, rfl⟩⟩
    · exact ⟨t.last + 1, .inr ⟨hout, fun d _ _ => hnone d, rfl⟩⟩

end Timeline

namespace Block

def Touches (b : Block) (code : List Instruction) (n : Numbering) (access : Access)
    (id line : Nat) : Prop :=
  line ∈ b.lines ∧ ∃ v, Accesses code access line v ∧ n.var? id = some v

def timeline (b : Block) (code : List Instruction) (n : Numbering) (id : Nat) : Timeline where
  first := b.first
  last := b.last
  defines := b.Touches code n .define id
  uses := b.Touches code n .use id
  out := id ∈ b.liveOut
  defines_within h := mem_lines.mp h.1
  uses_within h := mem_lines.mp h.1

end Block

namespace FlowGraph
variable {g : FlowGraph} {f : Function} {bounds : List Bounds} {b : Block} {line : Nat}

/-- A variable is live on entry of a line if its value there is needed. -/
theorem Describes.liveEntering_iff_needed (h : g.Describes f bounds) (hb : b ∈ g.blocks) (id : Nat)
    (hline : line ≤ b.last + 1) :
    b.LiveEntering id line ↔ ∃ stop, (b.timeline f.code g.vars id).Needed line stop := by
  -- upwards from the end of the block; both sides pass a line in the same way
  induction hline using Nat.decreasingInduction with
  | self =>
    have hend : ∀ stop, (b.timeline f.code g.vars id).Needed (b.last + 1) stop ↔
        id ∈ b.liveOut ∧ stop = b.last + 1 := fun stop => Timeline.needed_end_iff
    simp only [hend, exists_and_left, exists_eq, and_true]
    exact b.liveLeaving_last id
  | of_succ line hlt ih =>
    have hle : line ≤ b.last := by omega
    have hstep : ∀ stop, (b.timeline f.code g.vars id).Needed line stop ↔ _ :=
      fun stop => Timeline.needed_iff hle
    rw [Block.liveEntering_iff hle, Block.LiveLeaving, ih, h.mem_idsAt b hb, h.mem_idsAt b hb]
    simp only [hstep, exists_or, exists_and_left, exists_eq, and_true]
    exact or_congr Iff.rfl and_comm

/-- The live sets count every use of a block, also one that comes after a definition. -/
theorem Analysed.mem_liveIn_iff (h : g.Analysed f bounds) (hb : b ∈ g.blocks) (v : Nat) :
    v ∈ b.liveIn ↔ (∃ u, (b.timeline f.code g.vars v).uses u) ∨
      ((b.timeline f.code g.vars v).out ∧ ∀ d, ¬ (b.timeline f.code g.vars v).defines d) := by
  have hlists : ∀ access, v ∈ (b.mentions access).linesOf ↔
      ∃ line, b.Touches f.code g.vars access v line := by
    intro access
    rw [(h.agrees b hb).mem_linesOf]
    exact exists_congr fun line => h.mem_idsAt b hb access line v
  rw [h.liveIn_eq b hb, Block.mem_liveBefore, ← not_exists]
  exact or_congr (hlists .use) (and_congr_right fun _ => not_congr (hlists .define))

theorem Analysed.mem_liveIn_of_entering (h : g.Analysed f bounds) (hb : b ∈ g.blocks) {id : Nat}
    (hin : b.LiveEntering id b.first) : id ∈ b.liveIn := by
  have hle := h.first_le_last b hb
  rw [h.liveEntering_iff_needed hb id (by omega)] at hin
  rw [h.mem_liveIn_iff hb]
  rcases Timeline.exists_needed_first_iff.mp hin with ⟨u, hu, _⟩ | hout
  · exact .inl ⟨u, hu⟩
  · exact .inr hout

end FlowGraph

end RegisterColoring
