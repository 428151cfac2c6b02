import RegisterColoring.Interference.OfFlow
import RegisterColoring.Proofs.Interference.Graph
import RegisterColoring.Proofs.Live.Lines

namespace RegisterColoring

/-- One of the two variables is defined on the line while the other is live on its exit. Among
several definitions of a line, an earlier one has ended the life of its variable. -/
def Block.Clashes (b : Block) (line x y : Nat) : Prop :=
  x ≠ y ∧ ∃ before d after, b.idsAt .define line = before ++ d :: after ∧
    ((x = d ∧ b.LiveLeaving y line ∧ y ∉ before) ∨ (y = d ∧ b.LiveLeaving x line ∧ x ∉ before))

private theorem Block.Clashes.symm {b : Block} {line x y : Nat} (h : b.Clashes line x y) :
    b.Clashes line y x := by
  obtain ⟨hne, before, d, after, hdefs, hside⟩ := h
  exact ⟨hne.symm, before, d, after, hdefs, hside.symm⟩

namespace InterferenceGraph

private theorem interferes_foldl_addEdge (v : Nat) (ws : List Nat) {g : InterferenceGraph}
    (h : g.Sized) (x y : Nat) :
    (ws.foldl (fun g w => g.addEdge v w) g).interferes x y = true ↔
      g.interferes x y = true ∨ (x ≠ y ∧ ((x = v ∧ y ∈ ws) ∨ (y = v ∧ x ∈ ws))) := by
  induction ws generalizing g with
  | nil => simp
  | cons w ws ih =>
    rw [List.foldl_cons, ih (h.addEdge v w), interferes_addEdge h, or_assoc]
    refine or_congr_right ?_
    simp only [List.mem_cons]
    constructor
    · intro hedge
      rcases hedge with ⟨hvw, ⟨rfl, rfl⟩ | ⟨rfl, rfl⟩⟩ | ⟨hne, ⟨rfl, hy⟩ | ⟨rfl, hx⟩⟩
      · exact ⟨hvw, .inl ⟨rfl, .inl rfl⟩⟩
      · exact ⟨hvw.symm, .inr ⟨rfl, .inl rfl⟩⟩
      · exact ⟨hne, .inl ⟨rfl, .inr hy⟩⟩
      · exact ⟨hne, .inr ⟨rfl, .inr hx⟩⟩
    · intro hedge
      rcases hedge with ⟨hne, ⟨rfl, rfl | hy⟩ | ⟨rfl, rfl | hx⟩⟩
      · exact .inl ⟨hne, .inl ⟨rfl, rfl⟩⟩
      · exact .inr ⟨hne, .inl ⟨rfl, hy⟩⟩
      · exact .inl ⟨hne.symm, .inr ⟨rfl, rfl⟩⟩
      · exact .inr ⟨hne, .inr ⟨rfl, hx⟩⟩

private theorem sized_foldl_addEdge (v : Nat) (ws : List Nat) {g : InterferenceGraph}
    (h : g.Sized) : (ws.foldl (fun g w => g.addEdge v w) g).Sized := by
  induction ws generalizing g with
  | nil => exact h
  | cons w ws ih => exact ih (h.addEdge v w)

private theorem size_foldl_addEdge {v : Nat} {ws : List Nat} {g : InterferenceGraph}
    (hv : v < g.rows.size) (hws : ∀ w ∈ ws, w < g.rows.size) :
    (ws.foldl (fun g w => g.addEdge v w) g).rows.size = g.rows.size := by
  induction ws generalizing g with
  | nil => rfl
  | cons w ws ih =>
    have hsize := g.size_addEdge_of_lt hv (hws w (by simp))
    rw [List.foldl_cons, ih (hsize ▸ hv) (fun u hu => hsize ▸ hws u (by simp [hu])), hsize]

namespace Sweep

theorem interferes_define {s : Sweep} (h : s.graph.Sized) (v x y : Nat) :
    (s.define v).graph.interferes x y = true ↔ s.graph.interferes x y = true ∨
      (x ≠ y ∧ ((x = v ∧ y ∈ s.live) ∨ (y = v ∧ x ∈ s.live))) := by
  simp only [define]
  rw [interferes_foldl_addEdge v _ (h.addNode v), interferes_addNode]
  exact Iff.rfl

private theorem mem_live_define {s : Sweep} {v w : Nat} :
    w ∈ (s.define v).live ↔ w ∈ s.live ∧ w ≠ v :=
  VarSet.mem_erase

theorem sized_define {s : Sweep} (h : s.graph.Sized) (v : Nat) : (s.define v).graph.Sized :=
  sized_foldl_addEdge v _ (h.addNode v)

theorem interferes_use (s : Sweep) (v x y : Nat) :
    (s.use v).graph.interferes x y = s.graph.interferes x y :=
  s.graph.interferes_addNode v x y

private theorem defines_spec (ds : List Nat) {s : Sweep} (h : s.graph.Sized) :
    (ds.foldl define s).graph.Sized ∧
      (∀ w, w ∈ (ds.foldl define s).live ↔ w ∈ s.live ∧ w ∉ ds) ∧
      ∀ x y, (ds.foldl define s).graph.interferes x y = true ↔
        s.graph.interferes x y = true ∨ (x ≠ y ∧ ∃ before d after, ds = before ++ d :: after ∧
          ((x = d ∧ y ∈ s.live ∧ y ∉ before) ∨ (y = d ∧ x ∈ s.live ∧ x ∉ before))) := by
  -- each definition leaves the live set before the next one is passed, hence `before`
  induction ds generalizing s with
  | nil => exact ⟨h, by simp, by simp⟩
  | cons e ds ih =>
    obtain ⟨hsized, hlive, hedges⟩ := ih (sized_define h e)
    refine ⟨hsized, ?_, ?_⟩
    · intro w
      rw [List.foldl_cons, hlive, mem_live_define, List.mem_cons, not_or, and_assoc]
    · intro x y
      rw [List.foldl_cons, hedges, interferes_define h, or_assoc]
      refine or_congr_right ?_
      constructor
      · intro hedge
        rcases hedge with ⟨hne, hfirst⟩ | ⟨hne, before, d, after, rfl, hlater⟩
        · refine ⟨hne, [], e, ds, rfl, ?_⟩
          simpa using hfirst
        · refine ⟨hne, e :: before, d, after, rfl, ?_⟩
          simp only [mem_live_define] at hlater
          simp only [List.mem_cons, not_or]
          tauto
      · intro hedge
        obtain ⟨hne, before, d, after, hsplit, hside⟩ := hedge
        cases before with
        | nil =>
          obtain ⟨rfl, rfl⟩ := List.cons.inj hsplit
          refine .inl ⟨hne, ?_⟩
          simpa using hside
        | cons e' before =>
          obtain ⟨rfl, rfl⟩ := List.cons.inj hsplit
          refine .inr ⟨hne, before, d, after, rfl, ?_⟩
          simp only [mem_live_define]
          simp only [List.mem_cons, not_or] at hside
          tauto

private theorem uses_spec (us : List Nat) {s : Sweep} (h : s.graph.Sized) :
    (us.foldl use s).graph.Sized ∧
      (∀ w, w ∈ (us.foldl use s).live ↔ w ∈ us ∨ w ∈ s.live) ∧
      ∀ x y, (us.foldl use s).graph.interferes x y = s.graph.interferes x y := by
  induction us generalizing s with
  | nil => exact ⟨h, by simp, by simp⟩
  | cons u us ih =>
    obtain ⟨hsized, hlive, hedges⟩ := ih (s := s.use u) (h.addNode u)
    refine ⟨hsized, ?_, ?_⟩
    · intro w
      have hu : w ∈ (s.use u).live ↔ w = u ∨ w ∈ s.live := VarSet.mem_insert
      rw [List.foldl_cons, hlive, hu, List.mem_cons]
      tauto
    · intro x y
      rw [List.foldl_cons, hedges, interferes_use]

private theorem line_spec {b : Block} {s : Sweep} {line : Nat} (hline : line ≤ b.last)
    (hsized : s.graph.Sized) (hlive : ∀ w, w ∈ s.live ↔ b.LiveLeaving w line) :
    (Sweep.line b s line).graph.Sized ∧
      (∀ w, w ∈ (Sweep.line b s line).live ↔ b.LiveEntering w line) ∧
      ∀ x y, (Sweep.line b s line).graph.interferes x y = true ↔
        s.graph.interferes x y = true ∨ b.Clashes line x y := by
  obtain ⟨hsized₁, hlive₁, hedges₁⟩ := defines_spec (b.idsAt .define line) hsized
  obtain ⟨hsized₂, hlive₂, hedges₂⟩ := uses_spec (b.idsAt .use line) hsized₁
  unfold Sweep.line
  rw [Block.getD_usesAt?, Block.getD_defsAt?]
  refine ⟨hsized₂, ?_, ?_⟩
  · intro w
    rw [hlive₂, hlive₁, hlive, Block.liveEntering_iff hline]
  · intro x y
    rw [hedges₂, hedges₁]
    simp only [hlive]
    exact Iff.rfl

private theorem lines_spec {b : Block} {g : InterferenceGraph} (hg : g.Sized) (count line : Nat)
    (hlast : line + count = b.last + 1) :
    let s := (List.range' line count).foldr (fun l s => Sweep.line b s l) ⟨g, b.liveOut⟩
    s.graph.Sized ∧ (∀ w, w ∈ s.live ↔ b.LiveEntering w line) ∧
      ∀ x y, s.graph.interferes x y = true ↔ g.interferes x y = true ∨
        ∃ l, line ≤ l ∧ l ≤ b.last ∧ b.Clashes l x y := by
  induction count generalizing line with
  | zero =>
    refine ⟨hg, ?_, ?_⟩
    · intro w
      have hl : line = b.last + 1 := by omega
      rw [hl]
      exact (b.liveLeaving_last w).symm
    · intro x y
      constructor
      · exact .inl
      · intro h
        rcases h with h | ⟨l, hl, hl', _⟩
        · exact h
        · omega
  | succ count ih =>
    obtain ⟨hsized, hlive, hedges⟩ := ih (line + 1) (by omega)
    have hle : line ≤ b.last := by omega
    obtain ⟨hsized', hlive', hedges'⟩ := line_spec hle hsized hlive
    simp only [List.range'_succ, List.foldr_cons]
    refine ⟨hsized', hlive', ?_⟩
    intro x y
    rw [hedges', hedges, or_assoc]
    refine or_congr_right ?_
    constructor
    · intro h
      rcases h with ⟨l, hl, hl', hc⟩ | hc
      · exact ⟨l, by omega, hl', hc⟩
      · exact ⟨line, Nat.le_refl _, hle, hc⟩
    · intro h
      obtain ⟨l, hl, hl', hc⟩ := h
      by_cases he : l = line
      · exact .inr (he ▸ hc)
      · exact .inl ⟨l, by omega, hl', hc⟩

/-- Passing a block adds an edge for every clash on one of its lines. -/
theorem block_spec {b : Block} (hb : b.first ≤ b.last) {g : InterferenceGraph} (hg : g.Sized) :
    (Sweep.block g b).graph.Sized ∧
      (∀ w, w ∈ (Sweep.block g b).live ↔ b.LiveEntering w b.first) ∧
      ∀ x y, (Sweep.block g b).graph.interferes x y = true ↔
        g.interferes x y = true ∨ ∃ line ∈ b.lines, b.Clashes line x y := by
  obtain ⟨hsized, hlive, hedges⟩ := lines_spec (b := b) hg (b.last + 1 - b.first) b.first (by omega)
  unfold Sweep.block Block.lines
  rw [List.foldl_reverse]
  refine ⟨hsized, hlive, ?_⟩
  intro x y
  rw [hedges]
  refine or_congr_right (exists_congr fun line => ?_)
  rw [← and_assoc, ← Block.mem_lines]
  exact Iff.rfl

/-- What every definition and every use of a block keeps is kept by the whole block. -/
theorem block_preserves {b : Block} (P : Sweep → Prop)
    (hdefine : ∀ s, P s → ∀ line ∈ b.lines, ∀ v ∈ b.idsAt .define line, P (s.define v))
    (huse : ∀ s, P s → ∀ line ∈ b.lines, ∀ v ∈ b.idsAt .use line, P (s.use v))
    {g : InterferenceGraph} (hg : P ⟨g, b.liveOut⟩) : P (Sweep.block g b) := by
  apply List.foldlRecOn (motive := P)
  · exact hg
  · intro s hs line hline
    have hline := List.mem_reverse.mp hline
    unfold Sweep.line
    rw [Block.getD_usesAt?, Block.getD_defsAt?]
    apply List.foldlRecOn (motive := P)
    · apply List.foldlRecOn (motive := P)
      · exact hs
      · intro s hs v hv
        exact hdefine s hs line hline v hv
    · intro s hs v hv
      exact huse s hs line hline v hv

private def Bounded (size : Nat) (s : Sweep) : Prop :=
  s.graph.rows.size = size ∧ ∀ w ∈ s.live, w < size

private theorem Bounded.define {size : Nat} {s : Sweep} (h : s.Bounded size) {v : Nat}
    (hv : v < size) : (s.define v).Bounded size := by
  have hnode : (s.graph.addNode v).rows.size = size := by
    rw [size_addNode, h.1]
    omega
  refine ⟨?_, ?_⟩
  · have hlive : ∀ w ∈ s.live.toList, w < (s.graph.addNode v).rows.size :=
      fun w hw => hnode ▸ h.2 w hw
    exact (size_foldl_addEdge (hnode ▸ hv) hlive).trans hnode
  · intro w hw
    exact h.2 w (mem_live_define.mp hw).1

private theorem Bounded.use {size : Nat} {s : Sweep} (h : s.Bounded size) {v : Nat}
    (hv : v < size) : (s.use v).Bounded size := by
  refine ⟨?_, ?_⟩
  · change (s.graph.addNode v).rows.size = size
    rw [size_addNode, h.1]
    omega
  · intro w hw
    rcases VarSet.mem_insert.mp hw with rfl | hw
    · exact hv
    · exact h.2 w hw

private theorem size_block {size : Nat} {b : Block}
    (hids : ∀ access line, ∀ v ∈ b.idsAt access line, v < size)
    (hout : ∀ v ∈ b.liveOut, v < size) {g : InterferenceGraph} (hg : g.rows.size = size) :
    (Sweep.block g b).graph.rows.size = size := by
  have hblock : (Sweep.block g b).Bounded size := by
    apply block_preserves
    · intro s hs line _ v hv
      exact hs.define (hids .define line v hv)
    · intro s hs line _ v hv
      exact hs.use (hids .use line v hv)
    · exact ⟨hg, hout⟩
  exact hblock.1

end Sweep

theorem sized_empty (size : Nat) : (empty size).Sized := by
  intro v row hrow
  rw [row?_empty] at hrow
  cases hrow

private theorem foldl_block_spec (blocks : List Block) (hb : ∀ b ∈ blocks, b.first ≤ b.last)
    {g : InterferenceGraph} (hg : g.Sized) :
    (blocks.foldl (fun graph b => (Sweep.block graph b).graph) g).Sized ∧
      ∀ x y, (blocks.foldl (fun graph b => (Sweep.block graph b).graph) g).interferes x y = true ↔
        g.interferes x y = true ∨ ∃ b ∈ blocks, ∃ line ∈ b.lines, b.Clashes line x y := by
  induction blocks generalizing g with
  | nil => exact ⟨hg, by simp⟩
  | cons b blocks ih =>
    obtain ⟨hsized, _, hedges⟩ := Sweep.block_spec (hb b (by simp)) hg
    obtain ⟨hsized', hedges'⟩ := ih (fun c hc => hb c (by simp [hc])) hsized
    refine ⟨hsized', ?_⟩
    intro x y
    rw [List.foldl_cons, hedges', hedges, or_assoc]
    refine or_congr_right ?_
    simp only [List.mem_cons, exists_eq_or_imp]

theorem sized_ofFlow {g : FlowGraph} (hb : ∀ b ∈ g.blocks, b.first ≤ b.last) :
    (ofFlow g).Sized :=
  (foldl_block_spec g.blocks.toList (fun b h => hb b (Array.mem_toList_iff.mp h))
    (sized_empty _)).1

/-- Two variables interfere exactly if they clash on some line. -/
theorem interferes_ofFlow {g : FlowGraph} (hb : ∀ b ∈ g.blocks, b.first ≤ b.last) (x y : Nat) :
    (ofFlow g).interferes x y = true ↔
      ∃ b ∈ g.blocks, ∃ line ∈ b.lines, b.Clashes line x y := by
  have h := (foldl_block_spec g.blocks.toList (fun b h => hb b (Array.mem_toList_iff.mp h))
    (sized_empty g.vars.size)).2 x y
  have hempty : (empty g.vars.size).interferes x y = false := by
    rw [interferes, row?_empty]
    rfl
  rw [hempty] at h
  simpa [ofFlow] using h

theorem symm_ofFlow {g : FlowGraph} (hb : ∀ b ∈ g.blocks, b.first ≤ b.last) {x y : Nat}
    (h : (ofFlow g).interferes x y = true) : (ofFlow g).interferes y x = true := by
  rw [interferes_ofFlow hb] at h ⊢
  obtain ⟨b, hmem, line, hline, hclash⟩ := h
  exact ⟨b, hmem, line, hline, hclash.symm⟩

theorem ne_of_interferes_ofFlow {g : FlowGraph} (hb : ∀ b ∈ g.blocks, b.first ≤ b.last)
    {x y : Nat} (h : (ofFlow g).interferes x y = true) : x ≠ y := by
  rw [interferes_ofFlow hb] at h
  obtain ⟨b, _, line, _, hclash⟩ := h
  exact hclash.1

theorem size_ofFlow {g : FlowGraph}
    (hids : ∀ b ∈ g.blocks, ∀ access line, ∀ v ∈ b.idsAt access line, v < g.vars.size)
    (hout : ∀ b ∈ g.blocks, ∀ v ∈ b.liveOut, v < g.vars.size) :
    (ofFlow g).rows.size = g.vars.size := by
  apply List.foldlRecOn (motive := fun graph : InterferenceGraph => graph.rows.size = g.vars.size)
  · simp [empty]
  · intro graph hgraph b hb
    have hmem := Array.mem_toList_iff.mp hb
    exact Sweep.size_block (hids b hmem) (hout b hmem) hgraph

end InterferenceGraph

end RegisterColoring
