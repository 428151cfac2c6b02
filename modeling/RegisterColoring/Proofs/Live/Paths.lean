import RegisterColoring.Proofs.Live.FixedPoint

namespace RegisterColoring

namespace FlowGraph

def MentionsIn (g : FlowGraph) (access : Access) (id v : Nat) : Prop :=
  ∃ b, g.blocks[id]? = some b ∧ v ∈ (b.mentions access).linesOf

/-- A path of `n` edges from block `id` to a use of the variable. -/
structure LivePath (g : FlowGraph) (v id n : Nat) (path : Nat → Nat) : Prop where
  start : path 0 = id
  edges : ∀ i < n, path (i + 1) ∈ g.succs (path i)
  used : g.MentionsIn .use (path n) v
  clear : ∀ i < n, ¬ g.MentionsIn .define (path i) v

def withLiveSets (g : FlowGraph) (live : Nat → VarSet × VarSet) : FlowGraph :=
  { g with blocks := g.blocks.mapIdx fun id b =>
      { b with liveIn := (live id).1, liveOut := (live id).2 } }

private theorem LivePath.cons {g : FlowGraph} {v id next n : Nat} {path : Nat → Nat}
    (h : g.LivePath v next n path) (hnext : next ∈ g.succs id)
    (hclear : ¬ g.MentionsIn .define id v) :
    g.LivePath v id (n + 1) fun i => if i = 0 then id else path (i - 1) where
  start := by simp
  edges i hi := by
    cases i with
    | zero => simpa [h.start] using hnext
    | succ i => simpa using h.edges i (by omega)
  used := by simpa using h.used
  clear i hi := by
    cases i with
    | zero => simpa using hclear
    | succ i => simpa using h.clear i (by omega)

theorem LivePath.tail {g : FlowGraph} {v id n : Nat} {path : Nat → Nat}
    (h : g.LivePath v id (n + 1) path) :
    g.LivePath v (path 1) n fun i => path (i + 1) where
  start := rfl
  edges i hi := h.edges (i + 1) (by omega)
  used := h.used
  clear i hi := h.clear (i + 1) (by omega)

theorem exists_livePath {g : FlowGraph} {v id : Nat} (h : g.UsedFrom v id) :
    ∃ n path, g.LivePath v id n path := by
  induction h with
  | @here id b hb hv =>
    refine ⟨0, fun _ => id, rfl, ?_, ⟨b, hb, hv⟩, ?_⟩
    · intro i hi
      exact absurd hi (Nat.not_lt_zero i)
    · intro i hi
      exact absurd hi (Nat.not_lt_zero i)
  | @later id next b hb hnext hv _ ih =>
    obtain ⟨n, path, hpath⟩ := ih
    have hclear : ¬ g.MentionsIn .define id v := by
      intro hdef
      obtain ⟨c, hc, hvc⟩ := hdef
      rw [hb, Option.some.injEq] at hc
      exact hv (hc ▸ hvc)
    exact ⟨n + 1, _, hpath.cons hnext hclear⟩

private theorem LivePath.usedFrom {g : FlowGraph} {v id n : Nat} {path : Nat → Nat}
    (h : g.LivePath v id n path) (hedge : ∀ e ∈ g.edges, e.1 < g.blocks.size) :
    g.UsedFrom v id := by
  induction n generalizing id path with
  | zero =>
    obtain ⟨b, hb, hv⟩ := h.used
    rw [h.start] at hb
    exact .here hb hv
  | succ n ih =>
    have hnext : path 1 ∈ g.succs id := by
      have he := h.edges 0 (Nat.succ_pos n)
      rwa [h.start] at he
    have hlt : id < g.blocks.size := hedge _ (mem_succs.mp hnext)
    have hclear := h.clear 0 (Nat.succ_pos n)
    rw [h.start] at hclear
    have hb := Array.getElem?_eq_getElem hlt
    exact .later hb hnext (fun hv => hclear ⟨_, hb, hv⟩) (ih h.tail)

/-- With settled sets, every use that a path leads to is in the set of the path's first block. -/
theorem mem_liveIn_of_usedFrom {g : FlowGraph} {blocks : Array Block} (hpart : g.Partway blocks)
    (hset : ∀ id, g.Settled blocks id) {v id : Nat} (h : g.UsedFrom v id) :
    v ∈ liveInOf blocks id := by
  induction h with
  | here hb hv =>
    obtain ⟨c, hc, hskel⟩ := exists_of_skeleton hpart.skeleton.symm hb
    have huses := Block.eq_of_skeleton Block.uses (fun _ => rfl) hskel
    refine mem_liveInOf.mpr ⟨c, hc, ?_⟩
    rw [(hset _ c hc).1, Block.mem_liveBefore]
    exact .inl (huses ▸ hv)
  | later hb hnext hv _ ih =>
    obtain ⟨c, hc, hskel⟩ := exists_of_skeleton hpart.skeleton.symm hb
    have hdefs := Block.eq_of_skeleton Block.defs (fun _ => rfl) hskel
    refine mem_liveInOf.mpr ⟨c, hc, ?_⟩
    rw [(hset _ c hc).1, Block.mem_liveBefore]
    exact .inr ⟨mem_outOf.mpr ⟨_, hnext, ih⟩, hdefs ▸ hv⟩

theorem Describes.linesOf_lt {g : FlowGraph} {f : Function} {bounds : List Bounds}
    (h : g.Describes f bounds) (access : Access) :
    ∀ b ∈ g.blocks, ∀ v ∈ (b.mentions access).linesOf, v < g.vars.size := by
  intro b hb v hv
  obtain ⟨line, hline⟩ := ((h.agrees b hb).mem_linesOf access).mp hv
  exact h.idsAt_lt hb hline

private theorem mem_liveIn_analyzeSets {g : FlowGraph}
    (huses : ∀ b ∈ g.blocks, ∀ v ∈ b.uses.linesOf, v < g.vars.size) {id : Nat} {b : Block}
    (hb : g.analyzeSets.1.blocks[id]? = some b) (v : Nat) : v ∈ b.liveIn ↔ g.UsedFrom v id := by
  constructor
  · intro hv
    exact (g.partway_analyzeSets.justified id b hb).1 v hv
  · intro h
    obtain ⟨c, hc, hv⟩ := mem_liveInOf.mp
      (mem_liveIn_of_usedFrom g.partway_analyzeSets (settled_analyzeSets huses) h)
    rw [hb, Option.some.injEq] at hc
    exact hc ▸ hv

private theorem skeleton_withLiveSets (g : FlowGraph) (live : Nat → VarSet × VarSet) :
    (g.withLiveSets live).blocks.map Block.skeleton = g.blocks.map Block.skeleton := by
  apply Array.ext_getElem?
  intro id
  rw [withLiveSets, Array.getElem?_map, Array.getElem?_map, Array.getElem?_mapIdx]
  cases g.blocks[id]? <;> rfl

theorem sameRecords_withLiveSets (g : FlowGraph) (live : Nat → VarSet × VarSet) :
    g.SameRecords (g.withLiveSets live) where
  blocks := by
    have h := congrArg Array.toList (g.skeleton_withLiveSets live)
    rwa [Array.toList_map, Array.toList_map] at h
  edges := rfl
  vars := rfl

private theorem MentionsIn.of_skeleton {g g' : FlowGraph}
    (hskel : g.blocks.map Block.skeleton = g'.blocks.map Block.skeleton) {access : Access}
    {id v : Nat} (h : g.MentionsIn access id v) : g'.MentionsIn access id v := by
  obtain ⟨b, hb, hv⟩ := h
  obtain ⟨c, hc, he⟩ := exists_of_skeleton hskel hb
  have hm := Block.eq_of_skeleton (fun d => d.mentions access)
    (fun _ => by cases access <;> rfl) he
  exact ⟨c, hc, hm ▸ hv⟩

private theorem LivePath.of_skeleton {g g' : FlowGraph}
    (hskel : g.blocks.map Block.skeleton = g'.blocks.map Block.skeleton)
    (hedges : g.edges = g'.edges) {v id n : Nat} {path : Nat → Nat}
    (h : g.LivePath v id n path) : g'.LivePath v id n path where
  start := h.start
  edges i hi := by
    rw [mem_succs, ← hedges, ← mem_succs]
    exact h.edges i hi
  used := h.used.of_skeleton hskel
  clear i hi hdef := h.clear i hi (hdef.of_skeleton hskel.symm)

/-- After the analysis of a built graph, whatever live sets it held before, a variable is live
on entry of a block exactly if a path leads from there to a use of it, and live on exit exactly
if it is live on entry of a successor. -/
theorem liveSets_iff_livePath {f : Function} {t : SymbolTable} {g : FlowGraph}
    (hg : g.Built f t) (live : Nat → VarSet × VarSet) (id : Nat) (hid : id < g.blocks.size) :
    ∃ b, (g.withLiveSets live).analyzeSets.1.blocks[id]? = some b ∧ ∀ v,
      (v ∈ b.liveIn ↔ ∃ n path, g.LivePath v id n path) ∧
      (v ∈ b.liveOut ↔ ∃ next ∈ g.succs id,
        v ∈ liveInOf (g.withLiveSets live).analyzeSets.1.blocks next) := by
  obtain ⟨bounds, hdescribes⟩ := hg.describes
  have hsets := hdescribes.of_sameRecords (g.sameRecords_withLiveSets live)
  have huses := hsets.linesOf_lt .use
  have hskel := (partway_analyzeSets (g.withLiveSets live)).skeleton.trans
    (g.skeleton_withLiveSets live)
  obtain ⟨b, hb, _⟩ := exists_of_skeleton hskel.symm (Array.getElem?_eq_getElem hid)
  refine ⟨b, hb, fun v => ⟨?_, ?_⟩⟩
  · rw [mem_liveIn_analyzeSets huses hb]
    constructor
    · intro hv
      obtain ⟨n, path, hpath⟩ := exists_livePath hv
      exact ⟨n, path, hpath.of_skeleton (g.skeleton_withLiveSets live) rfl⟩
    · intro hv
      obtain ⟨n, path, hpath⟩ := hv
      have hpath' := hpath.of_skeleton (g.skeleton_withLiveSets live).symm rfl
      exact hpath'.usedFrom fun e he => (hsets.edge_lt he).1
  · rw [(settled_analyzeSets huses id b hb).2, mem_outOf]
    exact Iff.rfl

/-- The loop of the sample function, with sets that name a variable it does not have. -/
theorem spin_liveSets : ∃ g, FlowGraph.build spin spinTable = .ok g ∧ 1 < g.blocks.size ∧
    ∃ b, (g.withLiveSets fun _ => (.ofList [7], ∅)).analyzeSets.1.blocks[1]? = some b ∧ ∀ v,
      (v ∈ b.liveIn ↔ ∃ n path, g.LivePath v 1 n path) ∧
      (v ∈ b.liveOut ↔ ∃ next ∈ g.succs 1,
        v ∈ liveInOf (g.withLiveSets fun _ => (.ofList [7], ∅)).analyzeSets.1.blocks next) := by
  obtain ⟨g, hg, hsize⟩ : ∃ g, FlowGraph.build spin spinTable = .ok g ∧ 1 < g.blocks.size :=
    ⟨_, rfl, by decide⟩
  exact ⟨g, hg, hsize, liveSets_iff_livePath (.build hg) _ 1 hsize⟩

end FlowGraph

end RegisterColoring
