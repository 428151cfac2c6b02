import RegisterColoring.Proofs.Flow.Links
import RegisterColoring.Proofs.Flow.Recording
import RegisterColoring.Proofs.Flow.Tiling
import RegisterColoring.Proofs.Symbols
import Mathlib.Data.List.Forall2
/-!
# Flow graphs that were built

A built flow graph describes its function: the blocks tile the code, they record what the
instructions access, and the edges join blocks. The analyses keep all of this.
-/
namespace RegisterColoring

namespace Block

def bounds (b : Block) : Bounds := ⟨b.first, b.last⟩

/-- The block without what the analyses found. -/
def skeleton (b : Block) : Block := { b with liveIn := ∅, liveOut := ∅, ranges := [] }

/-- What does not look at the findings of the analyses is the same on equal skeletons. -/
theorem eq_of_skeleton {α : Sort _} (view : Block → α)
    (hview : ∀ b : Block, view b.skeleton = view b) {b c : Block} (h : b.skeleton = c.skeleton) :
    view b = view c := by
  rw [← hview b, h, hview c]

theorem mem_lines {b : Block} {line : Nat} :
    line ∈ b.lines ↔ b.first ≤ line ∧ line ≤ b.last := by
  rw [lines, List.mem_range'_1]
  omega

theorem hasLine_ofBounds (code : List Instruction) (c : Bounds) :
    ∀ line ∈ (ofBounds code c).lines, (ofBounds code c).HasLine line := by
  intro line hline
  have hl := mem_lines.mp hline
  refine ⟨hl.1, fun access => ?_⟩
  have hsize : ((ofBounds code c).mentions access).perLine.size = c.last + 1 - c.first := by
    cases access <;> simp [mentions, ofBounds, Mentions.none]
  rw [hsize]
  change c.first ≤ line ∧ line ≤ c.last at hl
  change line - c.first < _
  omega

theorem agrees_ofBounds (code : List Instruction) (c : Bounds) :
    (ofBounds code c).Agrees := by
  intro access
  cases access <;> exact Mentions.agree_none _ _

private theorem idsAt_ofBounds (code : List Instruction) (c : Bounds) (access : Access)
    (line : Nat) : (ofBounds code c).idsAt access line = [] := by
  have honLine : ((ofBounds code c).mentions access).onLine c.first line = [] := by
    cases access <;> simp only [mentions, ofBounds, Mentions.none, Mentions.onLine,
      Array.getElem?_replicate] <;> split <;> rfl
  unfold idsAt
  split
  · exact honLine
  · rfl

end Block

namespace FlowGraph

/-- The graphs that are handed out, with computed bounds or with given ones. -/
inductive Built (f : Function) (t : SymbolTable) (g : FlowGraph) : Prop
  | build (h : FlowGraph.build f t = .ok g)
  | ofBounds (bounds : List Bounds) (h : FlowGraph.ofBounds f t bounds = .ok g)

/-- What a flow graph with these bounds says about its function. -/
structure Describes (g : FlowGraph) (f : Function) (bounds : List Bounds) : Prop where
  tiles : Bounds.Tiles f.code.length 0 bounds
  bounds_eq : g.blocks.toList.map Block.bounds = bounds
  edges_eq : g.edges = Links.edges f.code (bounds.map (Block.ofBounds f.code))
  nodup : g.vars.toList.Nodup
  hasLine : ∀ b ∈ g.blocks, ∀ line ∈ b.lines, b.HasLine line
  agrees : ∀ b ∈ g.blocks, b.Agrees
  mem_idsAt : ∀ b ∈ g.blocks, ∀ access line id, id ∈ b.idsAt access line ↔
    line ∈ b.lines ∧ ∃ v, Accesses f.code access line v ∧ g.vars.var? id = some v
  named : ∀ b ∈ g.blocks, ∀ access, ∀ line ∈ b.lines, ∀ v, Accesses f.code access line v →
    ∃ id, g.vars.var? id = some v

theorem ofBounds_frame {f : Function} {t : SymbolTable} {bounds : List Bounds} {g : FlowGraph}
    (h : ofBounds f t bounds = .ok g) :
    g = { linked f bounds with vars := g.vars, blocks := g.blocks } := by
  unfold ofBounds at h
  split at h
  · cases h
  · split at h
    · next g' hrecord =>
      obtain rfl := Except.ok.inj h
      have hfst : ((linked f bounds).record f t).1 = g' := by rw [hrecord]
      rw [← hfst]
      rfl
    · cases h

theorem record_eq_ok {f : Function} {t : SymbolTable} {bounds : List Bounds}
    {g : FlowGraph} (h : ofBounds f t bounds = .ok g) :
    Bounds.Tiles f.code.length 0 bounds ∧ g.edges = (linked f bounds).edges ∧
      Recorded.blocks t f (bounds.map (Block.ofBounds f.code)) .empty =
        ⟨g.vars, g.blocks.toList, none⟩ := by
  unfold ofBounds at h
  split at h
  · cases h
  · next hcheck =>
    split at h
    · next g' hrecord =>
      obtain rfl := Except.ok.inj h
      have hblocks : (linked f bounds).blocks.toList = bounds.map (Block.ofBounds f.code) := rfl
      simp only [record, Prod.mk.injEq, hblocks] at hrecord
      obtain ⟨rfl, herror⟩ := hrecord
      refine ⟨(Bounds.check_eq_ok_iff _ _ _ _).mp hcheck, rfl, ?_⟩
      rw [← herror]
      rfl
    · cases h

theorem ofBounds_gains {f : Function} {t : SymbolTable} {bounds : List Bounds}
    {g : FlowGraph} (h : ofBounds f t bounds = .ok g) : g.vars.toList.Nodup ∧
      List.Forall₂ (fun c b => (Block.ofBounds f.code c).Gains g.vars (fun access line v =>
        line ∈ (Block.ofBounds f.code c).lines ∧ Accesses f.code access line v) b)
        bounds g.blocks.toList := by
  have hlines : ∀ b ∈ bounds.map (Block.ofBounds f.code), ∀ line ∈ b.lines, b.HasLine line := by
    intro b hb
    obtain ⟨c, _, rfl⟩ := List.mem_map.mp hb
    exact Block.hasLine_ofBounds f.code c
  obtain ⟨_, hnodup, hgains⟩ := Recorded.blocks_gains t f (bounds.map (Block.ofBounds f.code))
    g.blocks.toList .empty g.vars List.nodup_nil hlines (record_eq_ok h).2.2
  exact ⟨hnodup, List.forall₂_map_left_iff.mp (hgains g.vars (.refl _) hnodup)⟩

theorem ofBounds_describes {f : Function} {t : SymbolTable} {bounds : List Bounds}
    {g : FlowGraph} (h : ofBounds f t bounds = .ok g) : g.Describes f bounds := by
  obtain ⟨htiles, hedges, _⟩ := record_eq_ok h
  obtain ⟨hnodup, hall⟩ := ofBounds_gains h
  have hmem : ∀ b ∈ g.blocks, ∃ c, (Block.ofBounds f.code c).Gains g.vars
      (fun access line v => line ∈ (Block.ofBounds f.code c).lines ∧
        Accesses f.code access line v) b := by
    intro b hb
    obtain ⟨k, hk, rfl⟩ := List.mem_iff_getElem.mp (Array.mem_toList_iff.mpr hb)
    exact ⟨_, hall.get (hall.length_eq ▸ hk) hk⟩
  have hlinesEq : ∀ (c : Bounds) (b : Block) new,
      (Block.ofBounds f.code c).Gains g.vars new b → b.lines = (Block.ofBounds f.code c).lines := by
    intro c b new hb
    rw [hb.frame]
    rfl
  refine ⟨htiles, ?_, hedges, hnodup, ?_, ?_, ?_, ?_⟩
  · have hbounds : List.Forall₂ (fun (c : Bounds) (b : Block) => c = b.bounds) bounds
        g.blocks.toList := by
      refine hall.imp fun c b hb => ?_
      rw [hb.frame]
      rfl
    exact (List.forall₂_eq_eq_eq ▸ List.forall₂_map_right_iff.mpr hbounds).symm
  · intro b hb line hline
    obtain ⟨c, hc⟩ := hmem b hb
    rw [hlinesEq c b _ hc] at hline
    exact hc.hasLine (Block.hasLine_ofBounds f.code c line hline)
  · intro b hb
    obtain ⟨c, hc⟩ := hmem b hb
    exact hc.agrees (Block.agrees_ofBounds f.code c)
  · intro b hb access line id
    obtain ⟨c, hc⟩ := hmem b hb
    rw [hc.mem, Block.idsAt_ofBounds, hlinesEq c b _ hc]
    simp [and_assoc]
  · intro b hb access line hline v hv
    obtain ⟨c, hc⟩ := hmem b hb
    rw [hlinesEq c b _ hc] at hline
    exact hc.named access line v ⟨hline, hv⟩

theorem Built.exists_ofBounds {f : Function} {t : SymbolTable} {g : FlowGraph} (h : g.Built f t) :
    ∃ bounds, FlowGraph.ofBounds f t bounds = .ok g := by
  cases h with
  | build h => exact ⟨_, h⟩
  | ofBounds bounds h => exact ⟨bounds, h⟩

theorem Built.describes {f : Function} {t : SymbolTable} {g : FlowGraph} (h : g.Built f t) :
    ∃ bounds, g.Describes f bounds :=
  h.exists_ofBounds.imp fun _ => ofBounds_describes

/-- The graphs differ at most in what the analyses found. -/
structure SameRecords (g g' : FlowGraph) : Prop where
  blocks : g'.blocks.toList.map Block.skeleton = g.blocks.toList.map Block.skeleton
  edges : g'.edges = g.edges
  vars : g'.vars = g.vars

theorem SameRecords.exists_block {g g' : FlowGraph} (hs : SameRecords g g') {b' : Block}
    (hb' : b' ∈ g'.blocks) : ∃ b ∈ g.blocks, b.skeleton = b'.skeleton := by
  have hb := List.mem_map_of_mem (f := Block.skeleton) (Array.mem_toList_iff.mpr hb')
  rw [hs.blocks] at hb
  obtain ⟨b, hb, he⟩ := List.mem_map.mp hb
  exact ⟨b, Array.mem_toList_iff.mp hb, he⟩

theorem Describes.of_sameRecords {g g' : FlowGraph} {f : Function} {bounds : List Bounds}
    (h : g.Describes f bounds) (hs : SameRecords g g') : g'.Describes f bounds := by
  have hmem : ∀ b' ∈ g'.blocks, ∃ b ∈ g.blocks, b.skeleton = b'.skeleton :=
    fun _ hb' => hs.exists_block hb'
  have hlines : ∀ b b' : Block, b.skeleton = b'.skeleton → b.lines = b'.lines := by
    intro b b' he
    exact Block.eq_of_skeleton Block.lines (fun _ => rfl) he
  refine ⟨h.tiles, ?_, hs.edges.trans h.edges_eq, hs.vars ▸ h.nodup, ?_, ?_, ?_, ?_⟩
  · have hb : ∀ bs : List Block,
        bs.map Block.bounds = (bs.map Block.skeleton).map Block.bounds := by
      intro bs
      rw [List.map_map]
      rfl
    rw [hb, hs.blocks, ← hb, h.bounds_eq]
  · intro b' hb' line hline
    obtain ⟨b, hb, he⟩ := hmem b' hb'
    have hc := h.hasLine b hb line (hlines b b' he ▸ hline)
    exact Block.eq_of_skeleton (fun c => Block.HasLine c line) (fun _ => rfl) he ▸ hc
  · intro b' hb'
    obtain ⟨b, hb, he⟩ := hmem b' hb'
    exact Block.eq_of_skeleton Block.Agrees (fun _ => rfl) he ▸ h.agrees b hb
  · intro b' hb' access line id
    obtain ⟨b, hb, he⟩ := hmem b' hb'
    have hids := Block.eq_of_skeleton (fun c => Block.idsAt c access line) (fun _ => rfl) he
    rw [← hids, ← hlines b b' he, hs.vars]
    exact h.mem_idsAt b hb access line id
  · intro b' hb' access line hline v hv
    obtain ⟨b, hb, he⟩ := hmem b' hb'
    rw [hs.vars]
    exact h.named b hb access line (hlines b b' he ▸ hline) v hv

namespace Describes
variable {g : FlowGraph} {f : Function} {bounds : List Bounds}

theorem size_blocks (h : g.Describes f bounds) : bounds.length = g.blocks.size := by
  rw [← h.bounds_eq, List.length_map, Array.length_toList]

theorem getElem?_bounds (h : g.Describes f bounds) (id : Nat) :
    bounds[id]? = g.blocks[id]?.map Block.bounds := by
  rw [← h.bounds_eq, List.getElem?_map, Array.getElem?_toList]

theorem getElem?_bounds_of_block (h : g.Describes f bounds) {id : Nat} {b : Block}
    (hb : g.blocks[id]? = some b) : bounds[id]? = some b.bounds := by
  rw [h.getElem?_bounds, hb]
  rfl

theorem mem_bounds (h : g.Describes f bounds) {b : Block} (hb : b ∈ g.blocks) :
    b.bounds ∈ bounds := by
  rw [← h.bounds_eq]
  exact List.mem_map_of_mem (Array.mem_toList_iff.mpr hb)

theorem first_le_last (h : g.Describes f bounds) : ∀ b ∈ g.blocks, b.first ≤ b.last := by
  intro b hb
  exact (h.tiles.of_mem (h.mem_bounds hb)).2.1

theorem lt_length_of_mem_lines (h : g.Describes f bounds) {b : Block} (hb : b ∈ g.blocks)
    {line : Nat} (hline : line ∈ b.lines) : line < f.code.length :=
  Nat.lt_of_le_of_lt (Block.mem_lines.mp hline).2 (h.tiles.of_mem (h.mem_bounds hb)).2.2

theorem exists_block_of_lt (h : g.Describes f bounds) {line : Nat} (hline : line < f.code.length) :
    ∃ (k : Nat) (b : Block), g.blocks[k]? = some b ∧ line ∈ b.lines := by
  obtain ⟨k, c, hc, hfirst, hlast⟩ := h.tiles.exists_block (Nat.zero_le line) hline
  rw [h.getElem?_bounds] at hc
  obtain ⟨b, hb, rfl⟩ := Option.map_eq_some_iff.mp hc
  exact ⟨k, b, hb, Block.mem_lines.mpr ⟨hfirst, hlast⟩⟩

theorem edge_lt (h : g.Describes f bounds) {e : Nat × Nat} (he : e ∈ g.edges) :
    e.1 < g.blocks.size ∧ e.2 < g.blocks.size := by
  rw [h.edges_eq] at he
  obtain ⟨b, hb, ht⟩ := (Links.mem_edges _ _ e.1 e.2).mp he
  have hlt := Links.targets_lt _ _ hb ht
  have hlt' := (List.getElem?_eq_some_iff.mp hb).1
  rw [List.length_map, h.size_blocks] at hlt hlt'
  exact ⟨hlt', hlt⟩

theorem idsAt_lt (h : g.Describes f bounds) {b : Block} (hb : b ∈ g.blocks) {access : Access}
    {line id : Nat} (hid : id ∈ b.idsAt access line) : id < g.vars.size := by
  obtain ⟨_, v, _, hv⟩ := (h.mem_idsAt b hb access line id).mp hid
  exact Numbering.var?_lt_size hv

end Describes

theorem mem_succs {g : FlowGraph} {id target : Nat} :
    target ∈ g.succs id ↔ (id, target) ∈ g.edges := by
  unfold succs
  simp only [List.mem_map, List.mem_filter, decide_eq_true_eq]
  constructor
  · rintro ⟨⟨s, d⟩, ⟨he, rfl⟩, rfl⟩
    exact he
  · intro he
    exact ⟨(id, target), ⟨he, rfl⟩, rfl⟩

theorem mem_preds {g : FlowGraph} {id source : Nat} :
    source ∈ g.preds id ↔ (source, id) ∈ g.edges := by
  simp [preds]

end FlowGraph

def spinTable : SymbolTable :=
  .ofDeclarations [⟨"a", .int, ⟨0⟩⟩, ⟨"b", .int, ⟨0⟩⟩, ⟨"c", .int, ⟨0⟩⟩] [none]

/-- A loop that needs two values in every turn and makes a third one. -/
def spin : Function where
  name := "spin"
  scope := ⟨0⟩
  code := [
    ⟨none, .assign, [.var ⟨0⟩, .literal "1"]⟩,
    ⟨none, .assign, [.var ⟨1⟩, .literal "2"]⟩,
    ⟨some "again", .assign, [.var ⟨2⟩, .var ⟨1⟩]⟩,
    ⟨none, .ifFalseJump, [.var ⟨0⟩, .label "again"]⟩,
    ⟨none, .binary .add, [.var ⟨2⟩, .var ⟨2⟩, .var ⟨1⟩]⟩,
    ⟨none, .ret, [.var ⟨2⟩]⟩]

end RegisterColoring
