import RegisterColoring.Proofs.Flow.Built

namespace RegisterColoring

private theorem Block.contains_iff {b : Block} {line : Nat} :
    b.contains line = true ↔ line ∈ b.lines := by
  simp [contains, mem_lines]

namespace FlowGraph

def EndsBefore (g : FlowGraph) (line id : Nat) : Prop :=
  ∃ b, g.blocks[id]? = some b ∧ b.last < line

/-- Every block before `lo` ends before the line, and no block from `hi` on does. -/
structure Brackets (g : FlowGraph) (line lo hi : Nat) : Prop where
  below : ∀ id < lo, g.EndsBefore line id
  above : ∀ id, hi ≤ id → ¬ g.EndsBefore line id

section Described
variable {g : FlowGraph} {f : Function} {bounds : List Bounds} (h : g.Describes f bounds)
include h

private theorem Describes.last_lt_first {j k : Nat} {b c : Block} (hb : g.blocks[j]? = some b)
    (hc : g.blocks[k]? = some c) (hjk : j < k) : b.last < c.first := by
  exact h.tiles.last_lt_first (h.getElem?_bounds_of_block hb) (h.getElem?_bounds_of_block hc) hjk

theorem Describes.first_succ {k : Nat} {b c : Block} (hb : g.blocks[k]? = some b)
    (hc : g.blocks[k + 1]? = some c) : c.first = b.last + 1 ∧ c.first < f.code.length := by
  have hb' := h.getElem?_bounds_of_block hb
  have hc' := h.getElem?_bounds_of_block hc
  have hbefore := h.last_lt_first hb hc (Nat.lt_succ_self k)
  have hlt : c.first < f.code.length :=
    Nat.lt_of_le_of_lt (h.first_le_last c (Array.mem_of_getElem? hc))
      (h.tiles.of_mem (List.mem_of_getElem? hc')).2.2
  obtain ⟨d, hd, hfirst⟩ := h.tiles.exists_next hb' (Nat.lt_of_le_of_lt hbefore hlt)
  rw [hc', Option.some.injEq] at hd
  subst hd
  exact ⟨hfirst, hlt⟩

private theorem Describes.endsBefore_of_le {line j k : Nat} (hjk : j ≤ k)
    (hk : g.EndsBefore line k) :
    g.EndsBefore line j := by
  rcases hk with ⟨c, hc, hlast⟩
  rcases Nat.eq_or_lt_of_le hjk with rfl | hlt
  · exact ⟨c, hc, hlast⟩
  · have hsize := (Array.getElem?_eq_some_iff.mp hc).1
    have hb : g.blocks[j]? = some g.blocks[j] := Array.getElem?_eq_getElem (by omega)
    have hbefore := h.last_lt_first hb hc hlt
    have hle := h.first_le_last c (Array.mem_of_getElem? hc)
    exact ⟨_, hb, by omega⟩

/-- Halving ends where the blocks before the line end. -/
theorem Describes.brackets_firstNotBefore {line lo hi : Nat} (hle : lo ≤ hi)
    (hb : g.Brackets line lo hi) :
    g.Brackets line (g.firstNotBefore line lo hi) (g.firstNotBefore line lo hi) := by
  have htest : ∀ mid : Nat, (g.blocks[mid]?.any fun b => decide (b.last < line)) = true ↔
      g.EndsBefore line mid := by
    simp [EndsBefore, Option.any_eq_true]
  fun_induction firstNotBefore g line lo hi with
  | case1 lo hi hlt mid hmid ih =>
    apply ih (by omega)
    refine ⟨?_, hb.above⟩
    intro id hid
    exact h.endsBefore_of_le (by omega) ((htest mid).mp hmid)
  | case2 lo hi hlt mid hmid ih =>
    apply ih (by omega)
    refine ⟨hb.below, ?_⟩
    intro id hid hends
    exact hmid ((htest mid).mpr (h.endsBefore_of_le hid hends))
  | case3 lo hi hlt =>
    have heq : hi = lo := by omega
    subst heq
    exact hb

theorem Describes.blockOf?_eq_some_iff {line id : Nat} :
    g.blockOf? line = some id ↔ ∃ b, g.blocks[id]? = some b ∧ line ∈ b.lines := by
  have hbrackets : g.Brackets line 0 g.blocks.size := by
    refine ⟨by simp, ?_⟩
    rintro k hk ⟨b, hb, _⟩
    have := (Array.getElem?_eq_some_iff.mp hb).1
    omega
  have hfound := h.brackets_firstNotBefore (Nat.zero_le _) hbrackets
  have hcontains : ∀ k : Nat, (g.blocks[k]?.any fun b => b.contains line) = true ↔
      ∃ b, g.blocks[k]? = some b ∧ line ∈ b.lines := by
    simp [Option.any_eq_true, Block.contains_iff]
  simp only [blockOf?]
  constructor
  · intro hid
    split at hid
    · next hany =>
      rw [← Option.some.inj hid]
      exact (hcontains _).mp hany
    · cases hid
  · rintro ⟨b, hb, hline⟩
    rw [Block.mem_lines] at hline
    -- a found block before `id` would have to reach the line, and so would overlap `id`
    have hid : g.firstNotBefore line 0 g.blocks.size = id := by
      rcases Nat.lt_trichotomy (g.firstNotBefore line 0 g.blocks.size) id with hlt | heq | hgt
      · have hsize := (Array.getElem?_eq_some_iff.mp hb).1
        have hc : g.blocks[g.firstNotBefore line 0 g.blocks.size]? = some _ :=
          Array.getElem?_eq_getElem (Nat.lt_trans hlt hsize)
        have hbefore := h.last_lt_first hc hb hlt
        exact absurd ⟨_, hc, by omega⟩ (hfound.above _ (Nat.le_refl _))
      · exact heq
      · rcases hfound.below id hgt with ⟨c, hc, hlast⟩
        rw [hb, Option.some.injEq] at hc
        subst hc
        omega
    rw [hid, if_pos]
    exact (hcontains id).mpr ⟨b, hb, Block.mem_lines.mpr hline⟩

private theorem Describes.eq_of_mem_lines {line j k : Nat} {b c : Block}
    (hb : g.blocks[j]? = some b) (hline : line ∈ b.lines) (hc : g.blocks[k]? = some c)
    (hline' : line ∈ c.lines) : j = k := by
  have hj := h.blockOf?_eq_some_iff.mpr ⟨b, hb, hline⟩
  have hk := h.blockOf?_eq_some_iff.mpr ⟨c, hc, hline'⟩
  simpa [hj] using hk

private theorem Describes.blockOf?_eq_none {line : Nat} (hline : f.code.length ≤ line) :
    g.blockOf? line = none := by
  apply Option.eq_none_iff_forall_ne_some.mpr
  intro id hid
  obtain ⟨b, hb, hmem⟩ := h.blockOf?_eq_some_iff.mp hid
  have hlt := h.lt_length_of_mem_lines (Array.mem_of_getElem? hb) hmem
  omega

end Described

/-- The search for a line gives a block exactly if the block holds the line. A line of the code lies
in one block and in no other, and the search finds nothing for a line beyond the code. -/
theorem Built.search_agrees {f : Function} {t : SymbolTable} {g : FlowGraph} (hg : g.Built f t)
    (line : Nat) :
    (∀ id, g.blockOf? line = some id ↔
      ∃ b, g.blocks[id]? = some b ∧ b.contains line = true) ∧
    (line < f.code.length → ∃ id, g.blockOf? line = some id ∧
      ∀ (other : Nat) (b : Block), g.blocks[other]? = some b → b.contains line = true → other = id) ∧
    (f.code.length ≤ line → g.blockOf? line = none) := by
  obtain ⟨bounds, h⟩ := hg.describes
  simp only [Block.contains_iff]
  refine ⟨fun id => h.blockOf?_eq_some_iff, ?_, h.blockOf?_eq_none⟩
  intro hlt
  obtain ⟨id, c, hc, hline⟩ := h.exists_block_of_lt hlt
  refine ⟨id, h.blockOf?_eq_some_iff.mpr ⟨c, hc, hline⟩, ?_⟩
  intro other b hb hother
  exact h.eq_of_mem_lines hb hother hc hline

/-- With single lines as blocks beside a longer one: the first and the last line of the longer one,
the single line behind it, and the line behind the code. -/
theorem spin_search_agrees : ∃ g,
    FlowGraph.ofBounds spin spinTable [⟨0, 0⟩, ⟨1, 3⟩, ⟨4, 4⟩, ⟨5, 5⟩] = .ok g ∧
    g.blockOf? 1 = some 1 ∧ g.blockOf? 3 = some 1 ∧ g.blockOf? 4 = some 2 ∧
    (∃ id, g.blockOf? 4 = some id ∧ ∀ (other : Nat) (b : Block), g.blocks[other]? = some b →
      b.contains 4 = true → other = id) ∧
    g.blockOf? 6 = none := by
  obtain ⟨g, hg, hlong, hsingle⟩ : ∃ g,
      FlowGraph.ofBounds spin spinTable [⟨0, 0⟩, ⟨1, 3⟩, ⟨4, 4⟩, ⟨5, 5⟩] = .ok g ∧
      (g.blocks[1]?.map fun b : Block => (b.contains 1, b.contains 3)) = some (true, true) ∧
      (g.blocks[2]?.map fun b : Block => b.contains 4) = some true := by
    exact ⟨_, rfl, by decide +kernel, by decide +kernel⟩
  have hsearch := fun line => Built.search_agrees (.ofBounds _ hg) line
  obtain ⟨b, hb, hlines⟩ := Option.map_eq_some_iff.mp hlong
  obtain ⟨c, hc, hline⟩ := Option.map_eq_some_iff.mp hsingle
  simp only [Prod.mk.injEq] at hlines
  exact ⟨g, hg, ((hsearch 1).1 1).mpr ⟨b, hb, hlines.1⟩, ((hsearch 3).1 1).mpr ⟨b, hb, hlines.2⟩,
    ((hsearch 4).1 2).mpr ⟨c, hc, hline⟩, (hsearch 4).2.1 (by decide), (hsearch 6).2.2 (by decide)⟩

end FlowGraph

end RegisterColoring
