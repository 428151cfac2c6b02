import RegisterColoring.Proofs.Flow.Control
import RegisterColoring.Proofs.Flow.Lookup
/-!
# Edges and control

Control between lines and edges between blocks say the same: a step of control stays in its
block or takes an edge from the last line of a block to the first line of a block, and an edge
is such a step, or leads from a return to the exit block.
-/
namespace RegisterColoring

namespace Control

private theorem target_of_labelled {code : List Instruction} {bounds : List Bounds}
    (htiles : Bounds.Tiles code.length 0 bounds)
    (hstraight : ∀ b ∈ bounds, Bounds.Straight code b) {label : String} {k : Nat} {b : Bounds}
    (hb : bounds[k]? = some b)
    (h : Links.labelled? (bounds.map (Block.ofBounds code)) label = some k) :
    Target code label b.first := by
  rcases Links.of_labelled?_eq_some h with ⟨c, hc, hlabel, hlast⟩
  rw [List.getElem?_map, hb, Option.map_some, Option.some.injEq] at hc
  subst hc
  have hfirst := label_ofBounds.mp hlabel
  refine ⟨hfirst.1, hfirst.2, ?_⟩
  intro later hlater hlt hcarries
  have htarget : ∃ (j : Nat) (d : Bounds), bounds[j]? = some d ∧ d.first = later := by
    rcases htiles.exists_block (Nat.zero_le later) hlater with ⟨j, d, hd, hle, hle'⟩
    rcases Option.bind_eq_some_iff.mp hcarries with ⟨i, hi, hi'⟩
    refine ⟨j, d, hd, ?_⟩
    by_contra hne
    have hno := (hstraight d (List.mem_of_getElem? hd)).label_first later i (by omega) hle' hi
    rw [hasLabel_of_label hi' hfirst.1] at hno
    cases hno
  -- the later line begins a block after `k`, so the label would name that one
  rcases htarget with ⟨j, d, hd, rfl⟩
  have hkj : k < j := by
    by_contra hjk
    rcases Nat.eq_or_lt_of_le (Nat.not_lt.mp hjk) with rfl | hjk
    · rw [hb, Option.some.injEq] at hd
      subst hd
      omega
    · have hbefore := htiles.last_lt_first hd hb hjk
      have hle := (htiles.of_mem (List.mem_of_getElem? hd)).2.1
      omega
  apply hlast j (Block.ofBounds code d) hkj
  · simp [hd]
  · exact label_ofBounds.mpr ⟨hfirst.1, hcarries⟩

private theorem step_of_jumpTarget {code : List Instruction} {line target : Nat} {i : Instruction}
    {label : String} (hi : code[line]? = some i) (hlabel : i.jumpTarget = some label)
    (htarget : Target code label target) : Step code line target := by
  rcases jumpTarget_eq_some_iff.mp hlabel with ⟨hop, hlabel⟩ | ⟨hop, hlabel⟩
  · exact Step.jump hi hop hlabel htarget
  · exact Step.branch hi hop hlabel htarget

end Control

namespace FlowGraph

def SameBlock (g : FlowGraph) (line next : Nat) : Prop :=
  ∃ k, g.blockOf? line = some k ∧ g.blockOf? next = some k

/-- The first line ends its block, the second begins its own, and an edge joins the two. -/
def Crosses (g : FlowGraph) (line next : Nat) : Prop :=
  ∃ k l b c, g.blockOf? line = some k ∧ g.blockOf? next = some l ∧ g.blocks[k]? = some b ∧
    g.blocks[l]? = some c ∧ b.last = line ∧ c.first = next ∧ (k, l) ∈ g.edges

/-- Block `k` ends with a return, and `l` is the exit block, another one. -/
def ReturnsTo (g : FlowGraph) (code : List Instruction) (k l : Nat) : Prop :=
  (∃ b i, g.blocks[k]? = some b ∧ code[b.last]? = some i ∧ i.opcode = .ret) ∧
    Links.IsExit code g.blocks.toList l ∧ l ≠ k

variable {g : FlowGraph} {f : Function} {bounds : List Bounds}

private theorem Describes.isExit_iff (h : g.Describes f bounds) (id : Nat) :
    Links.IsExit f.code (bounds.map (Block.ofBounds f.code)) id ↔
      Links.IsExit f.code g.blocks.toList id := by
  have hhas : ∀ j, Links.HasEnd f.code (bounds.map (Block.ofBounds f.code)) j ↔
      Links.HasEnd f.code g.blocks.toList j := by
    intro j
    simp only [Links.HasEnd, List.getElem?_map, h.getElem?_bounds, Array.getElem?_toList,
      Option.map_map, Option.map_eq_some_iff]
    constructor
    · rintro ⟨_, ⟨b, hb, rfl⟩, hline⟩
      exact ⟨b, hb, hline⟩
    · rintro ⟨b, hb, hline⟩
      exact ⟨_, ⟨b, hb, rfl⟩, hline⟩
  simp [Links.IsExit, hhas, h.size_blocks]

section Straight
variable (h : g.Describes f bounds) (hstraight : ∀ b ∈ bounds, Bounds.Straight f.code b)
include h hstraight

private theorem Describes.sameBlock_or_crosses {line next : Nat}
    (hstep : Control.Step f.code line next) :
    (next = line + 1 ∧ g.SameBlock line next) ∨ g.Crosses line next := by
  rcases h.tiles.exists_block (Nat.zero_le line) hstep.lt_length with ⟨k, _, hc, hfirst, hlast⟩
  have hsides := hstep.within_or_across h.tiles hstraight hc hfirst hlast
  rw [h.getElem?_bounds] at hc
  rcases Option.map_eq_some_iff.mp hc with ⟨b, hb, rfl⟩
  have hk : g.blockOf? line = some k :=
    h.blockOf?_eq_some_iff.mpr ⟨b, hb, Block.mem_lines.mpr ⟨hfirst, hlast⟩⟩
  rcases hsides with ⟨rfl, hle⟩ | ⟨hend, l, _, hd, hnext, hedge⟩
  · left
    refine ⟨rfl, k, hk, h.blockOf?_eq_some_iff.mpr ⟨b, hb, Block.mem_lines.mpr ⟨?_, hle⟩⟩⟩
    exact Nat.le_succ_of_le hfirst
  · right
    rw [h.getElem?_bounds] at hd
    rcases Option.map_eq_some_iff.mp hd with ⟨c, hc, rfl⟩
    have hl : g.blockOf? next = some l := by
      apply h.blockOf?_eq_some_iff.mpr
      refine ⟨c, hc, Block.mem_lines.mpr ⟨Nat.le_of_eq hnext, ?_⟩⟩
      rw [← hnext]
      exact h.first_le_last c (Array.mem_of_getElem? hc)
    exact ⟨k, l, b, c, hk, hl, hb, hc, hend, hnext, h.edges_eq ▸ hedge⟩

private theorem Describes.step_or_returnsTo {k l : Nat} (he : (k, l) ∈ g.edges) :
    ∃ b c, g.blocks[k]? = some b ∧ g.blocks[l]? = some c ∧
      (Control.Step f.code b.last c.first ∨ g.ReturnsTo f.code k l) := by
  have hlt := h.edge_lt he
  have hb : g.blocks[k]? = some g.blocks[k] := Array.getElem?_eq_getElem hlt.1
  have hc : g.blocks[l]? = some g.blocks[l] := Array.getElem?_eq_getElem hlt.2
  have hb' := h.getElem?_bounds_of_block hb
  have hc' := h.getElem?_bounds_of_block hc
  refine ⟨_, _, hb, hc, ?_⟩
  have hlast : g.blocks[k].last < f.code.length :=
    (h.tiles.of_mem (List.mem_of_getElem? hb')).2.2
  have hi : f.code[g.blocks[k].last]? = some f.code[g.blocks[k].last] :=
    List.getElem?_eq_getElem hlast
  rw [h.edges_eq, Links.mem_edges] at he
  rcases he with ⟨d, hd, htargets⟩
  rw [List.getElem?_map, hb', Option.map_some, Option.some.injEq] at hd
  subst hd
  rcases Links.of_mem_targets hi htargets with
    ⟨label, hlabel, hnames⟩ | ⟨hjump, hret, hend, rfl, _⟩ | ⟨hret, hexit, hne⟩
  · left
    exact Control.step_of_jumpTarget hi hlabel
      (Control.target_of_labelled h.tiles hstraight hc' hnames)
  · left
    obtain ⟨hfirst, hlt⟩ := h.first_succ hb hc
    rw [hfirst] at hlt ⊢
    exact Control.Step.next hi hjump hret hend hlt
  · right
    refine ⟨⟨_, _, hb, hi, hret⟩, (h.isExit_iff l).mp ?_, hne⟩
    rw [hexit]
    apply Links.isExit_exitBlock
    simp only [List.length_map, h.size_blocks]
    omega

end Straight

/-- The computed blocks and the code allow the same control: every step is within a block or
along an edge, and every edge is a step or leads from a return to the exit block. -/
theorem build_simulates_control {f : Function} {t : SymbolTable} {g : FlowGraph}
    (h : FlowGraph.build f t = .ok g) :
    (∀ i j, Control.Step f.code i j → (j = i + 1 ∧ g.SameBlock i j) ∨ g.Crosses i j) ∧
    ∀ k l, (k, l) ∈ g.edges → ∃ b c, g.blocks[k]? = some b ∧ g.blocks[l]? = some c ∧
      (Control.Step f.code b.last c.first ∨ g.ReturnsTo f.code k l) := by
  have hdescribes : g.Describes f (Bounds.partition f.code) := ofBounds_describes h
  have hstraight := Bounds.straight_partition f.code
  refine ⟨?_, ?_⟩
  · intro i j hstep
    exact hdescribes.sameBlock_or_crosses hstraight hstep
  · intro k l hedge
    exact hdescribes.step_or_returnsTo hstraight hedge

def leave : Function where
  name := "leave"
  scope := ⟨0⟩
  code := [
    ⟨none, .ifFalseJump, [.var ⟨0⟩, .label "done"]⟩,
    ⟨none, .ret, [.var ⟨0⟩]⟩,
    ⟨some "done", .assign, [.var ⟨0⟩, .literal "1"]⟩,
    ⟨none, .funcEnd, []⟩]

/-- Its branch crosses to the last block, and the edge from its return is no step of control. -/
theorem leave_simulates_control : ∃ g, FlowGraph.build leave spinTable = .ok g ∧
    Control.Step leave.code 0 2 ∧ g.Crosses 0 2 ∧ (1, 2) ∈ g.edges ∧
    g.ReturnsTo leave.code 1 2 := by
  obtain ⟨g, hg, hedge, hlast⟩ : ∃ g, FlowGraph.build leave spinTable = .ok g ∧
      (1, 2) ∈ g.edges ∧ g.blocks[1]?.map Block.last = some 1 := ⟨_, rfl, by decide, by decide⟩
  have hstep : Control.Step leave.code 0 2 := .branch rfl rfl rfl ⟨by decide, rfl, by decide⟩
  have hret : ∀ next, ¬ Control.Step leave.code 1 next := by
    intro next h
    cases h with
    | jump hi hop | branch hi hop =>
      rw [← Option.some.inj hi] at hop
      cases hop
    | next hi _ hret => exact hret (Option.some.inj hi ▸ rfl)
  have hsimulates := build_simulates_control hg
  refine ⟨g, hg, hstep, ?_, hedge, ?_⟩
  · rcases hsimulates.1 0 2 hstep with ⟨hnext, _⟩ | hcrosses
    · cases hnext
    · exact hcrosses
  · rcases hsimulates.2 1 2 hedge with ⟨b, c, hb, _, hcontrol | hreturns⟩
    · rw [hb, Option.map_some, Option.some.injEq] at hlast
      rw [hlast] at hcontrol
      exact absurd hcontrol (hret _)
    · exact hreturns

end FlowGraph

end RegisterColoring
