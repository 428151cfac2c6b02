import RegisterColoring.Proofs.Flow.Simulation
import Mathlib.Data.List.Perm.Subperm
/-!
# Neighbours of a block

A graph lists its edges without repetition, and successors and predecessors can be kept beside the
edges while these are found. What the edges are in the end decides whether the first block is an
entry and the block that ends the function an exit.
-/
namespace RegisterColoring

namespace Links

/-- The edges as they are found, block by block and with repetitions. -/
def found (code : List Instruction) (blocks : List Block) : List (Nat × Nat) :=
  blocks.zipIdx.flatMap fun b => (targets code blocks b.2 b.1).map fun t => (b.2, t)

/-- The edges found so far, with the neighbours of every block. -/
structure Tables where
  edges : List (Nat × Nat)
  succs : Array (List Nat)
  preds : Array (List Nat)

/-- The table lists for each of `count` blocks, in the order of the edges, the values of the edges
that have the block as their key. -/
structure Lists (key value : Nat × Nat → Nat) (count : Nat) (edges : List (Nat × Nat))
    (table : Array (List Nat)) : Prop where
  size : table.size = count
  get : ∀ id < count, table[id]? = some ((edges.filter fun e => key e = id).map value)

private theorem lists_replicate (key value : Nat × Nat → Nat) (count : Nat) :
    Lists key value count [] (Array.replicate count []) := by
  refine ⟨Array.size_replicate, ?_⟩
  intro id hid
  simp [hid]

private theorem Lists.modify {key value : Nat × Nat → Nat} {count : Nat} {edges : List (Nat × Nat)}
    {table : Array (List Nat)} (h : Lists key value count edges table) (e : Nat × Nat) :
    Lists key value count (edges ++ [e]) (table.modify (key e) (· ++ [value e])) := by
  refine ⟨Array.size_modify.trans h.size, ?_⟩
  intro id hid
  rw [Array.getElem?_modify, h.get id hid, List.filter_append, List.map_append]
  by_cases hkey : key e = id
  · simp [hkey]
  · simp [hkey]

namespace Tables

def start (count : Nat) : Tables := ⟨[], .replicate count [], .replicate count []⟩

/-- Enter an edge that is not there yet. It has to join two of the blocks. -/
def enter? (t : Tables) (e : Nat × Nat) : Option Tables :=
  if t.edges.contains e then some t
  else if e.1 < t.succs.size ∧ e.2 < t.preds.size then
    some {
      edges := t.edges ++ [e]
      succs := t.succs.modify e.1 (· ++ [e.2])
      preds := t.preds.modify e.2 (· ++ [e.1]) }
  else none

def link? (code : List Instruction) (blocks : List Block) : Option Tables :=
  (found code blocks).foldlM enter? (start blocks.length)

/-- The edges are all different, and the tables list them by source and by target. -/
structure Agree (count : Nat) (t : Tables) : Prop where
  nodup : t.edges.Nodup
  succs : Lists Prod.fst Prod.snd count t.edges t.succs
  preds : Lists Prod.snd Prod.fst count t.edges t.preds

private theorem agree_start (count : Nat) : (start count).Agree count :=
  ⟨List.nodup_nil, lists_replicate _ _ count, lists_replicate _ _ count⟩

/-- An edge between blocks enters all three or, if it is there already, none. -/
theorem Agree.enter? {count : Nat} {t : Tables} (h : t.Agree count) {e : Nat × Nat}
    (he : e.1 < count ∧ e.2 < count) :
    ∃ later, t.enter? e = some later ∧ later.edges = add t.edges e ∧ later.Agree count := by
  unfold Tables.enter? add
  split
  · exact ⟨t, rfl, rfl, h⟩
  · next hnew =>
    have hmem : e ∉ t.edges := by simpa using hnew
    rw [h.succs.size, h.preds.size, if_pos he]
    refine ⟨_, rfl, rfl, ?_, h.succs.modify e, h.preds.modify e⟩
    simp only [List.nodup_append, h.nodup, List.nodup_singleton, true_and, List.mem_singleton]
    intro d hd d' hd' heq
    exact hmem (hd' ▸ heq ▸ hd)

private theorem Agree.enterAll {count : Nat} {t : Tables} (h : t.Agree count)
    (new : List (Nat × Nat)) (hnew : ∀ e ∈ new, e.1 < count ∧ e.2 < count) :
    ∃ later, new.foldlM Tables.enter? t = some later ∧ later.edges = new.foldl add t.edges ∧
      later.Agree count := by
  induction new generalizing t with
  | nil => exact ⟨t, rfl, rfl, h⟩
  | cons e new ih =>
    obtain ⟨next, hnext, hedges, hagree⟩ := h.enter? (hnew e (by simp))
    obtain ⟨later, hlater, hrest⟩ := ih hagree fun d hd => hnew d (by simp [hd])
    refine ⟨later, ?_, ?_⟩
    · rw [List.foldlM_cons, hnext]
      exact hlater
    · rw [List.foldl_cons, ← hedges]
      exact hrest

end Tables

private theorem found_lt (code : List Instruction) (blocks : List Block) :
    ∀ e ∈ found code blocks, e.1 < blocks.length ∧ e.2 < blocks.length := by
  intro e he
  obtain ⟨⟨b, id⟩, hb, he⟩ := List.mem_flatMap.mp he
  obtain ⟨target, htarget, rfl⟩ := List.mem_map.mp he
  have hb := List.mem_zipIdx_iff_getElem?.mp hb
  exact ⟨(List.getElem?_eq_some_iff.mp hb).1, targets_lt code blocks hb htarget⟩

private theorem exists_link (code : List Instruction) (blocks : List Block) :
    ∃ t, Tables.link? code blocks = some t ∧ t.edges = edges code blocks ∧
      t.Agree blocks.length :=
  (Tables.agree_start blocks.length).enterAll (found code blocks) (found_lt code blocks)

private theorem nodup_edges (code : List Instruction) (blocks : List Block) :
    (edges code blocks).Nodup := by
  obtain ⟨t, _, hedges, hagree⟩ := exists_link code blocks
  exact hedges ▸ hagree.nodup

private theorem length_targets_le (code : List Instruction) (blocks : List Block) (id : Nat)
    (b : Block) : (targets code blocks id b).length ≤ 2 := by
  have hjump : ((target? code b).bind (labelled? blocks)).toList.length ≤ 1 := by
    cases (target? code b).bind (labelled? blocks) <;> simp
  have hnext : (if id + 1 < blocks.length then [id + 1] else []).length ≤ 1 := by
    split <;> simp
  unfold targets
  simp only
  split
  · exact Nat.le_succ_of_le hjump
  · rw [List.length_append]
    exact Nat.add_le_add hjump hnext
  · split <;> simp
  · simp
  · exact Nat.le_succ_of_le hnext

private theorem IsExit.unique {code : List Instruction} {blocks : List Block} {id id' : Nat}
    (h : IsExit code blocks id) (h' : IsExit code blocks id') : id = id' := by
  rcases h with ⟨hend, hfirst⟩ | ⟨hnone, hlast⟩
  · rcases h' with ⟨hend', hfirst'⟩ | ⟨hnone', _⟩
    · rcases Nat.lt_trichotomy id id' with hlt | heq | hlt
      · exact absurd hend (hfirst' id hlt)
      · exact heq
      · exact absurd hend' (hfirst id' hlt)
    · exact absurd hend (hnone' id)
  · rcases h' with ⟨hend', _⟩ | ⟨_, hlast'⟩
    · exact absurd hend' (hnone id')
    · omega

private theorem entry_eq_some_iff (blocks : List Block) (edges : List (Nat × Nat)) (id : Nat) :
    entry blocks edges = some id ↔ id = 0 ∧ blocks ≠ [] ∧ ∀ e ∈ edges, e.2 ≠ id := by
  simp only [entry, Option.ite_none_left_eq_some, Bool.or_eq_true, List.isEmpty_iff,
    List.any_eq_true, decide_eq_true_eq, not_or, not_exists, not_and, Option.some.injEq]
  constructor
  · rintro ⟨⟨hne, hedges⟩, rfl⟩
    exact ⟨rfl, hne, hedges⟩
  · rintro ⟨rfl, hne, hedges⟩
    exact ⟨⟨hne, hedges⟩, rfl⟩

private theorem exit_eq_some_iff (code : List Instruction) (blocks : List Block)
    (edges : List (Nat × Nat)) (id : Nat) : exit code blocks edges = some id ↔
      IsExit code blocks id ∧ blocks ≠ [] ∧ ∀ e ∈ edges, e.1 ≠ id := by
  simp only [exit, Option.ite_none_left_eq_some, Bool.or_eq_true, List.isEmpty_iff,
    List.any_eq_true, decide_eq_true_eq, not_or, not_exists, not_and, Option.some.injEq]
  constructor
  · rintro ⟨⟨hne, hedges⟩, rfl⟩
    exact ⟨isExit_exitBlock code (List.length_pos_iff.mpr hne), hne, hedges⟩
  · rintro ⟨hexit, hne, hedges⟩
    obtain rfl := hexit.unique (isExit_exitBlock code (List.length_pos_iff.mpr hne))
    exact ⟨⟨hne, hedges⟩, rfl⟩

def unrecorded (b : Block) : Block := { b with uses := .none 0, defs := .none 0 }

private theorem labelled?_unrecorded (blocks : List Block) :
    labelled? (blocks.map unrecorded) = labelled? blocks := by
  funext label
  simp only [labelled?, List.zipIdx_map, List.filter_map, List.getLast?_map, Option.map_map]
  rfl

private theorem exitBlock_unrecorded (code : List Instruction) (blocks : List Block) :
    exitBlock code (blocks.map unrecorded) = exitBlock code blocks := by
  simp only [exitBlock, List.findIdx?_map, List.length_map]
  rfl

private theorem targets_unrecorded (code : List Instruction) (blocks : List Block) (id : Nat)
    (b : Block) :
    targets code (blocks.map unrecorded) id (unrecorded b) = targets code blocks id b := by
  simp only [targets, labelled?_unrecorded, exitBlock_unrecorded, List.length_map]
  rfl

private theorem edges_unrecorded (code : List Instruction) (blocks : List Block) :
    edges code (blocks.map unrecorded) = edges code blocks := by
  simp only [edges, List.zipIdx_map, List.flatMap_map, Prod.map, targets_unrecorded, id]

private theorem entry_unrecorded (blocks : List Block) :
    entry (blocks.map unrecorded) = entry blocks := by
  funext edges
  simp only [entry, List.isEmpty_map]

private theorem exit_unrecorded (code : List Instruction) (blocks : List Block) :
    exit code (blocks.map unrecorded) = exit code blocks := by
  funext edges
  simp only [exit, exitBlock_unrecorded, List.isEmpty_map]

end Links

private theorem Bounds.Tiles.eq_nil_iff {length : Nat} {bounds : List Bounds}
    (h : Bounds.Tiles length 0 bounds) : bounds = [] ↔ length = 0 := by
  cases bounds with
  | nil =>
    have hlength : 0 = length := h
    simp [← hlength]
  | cons b bounds =>
    obtain ⟨_, _, hlt, _⟩ := h
    simp only [reduceCtorEq, false_iff]
    omega

namespace FlowGraph
variable {f : Function} {t : SymbolTable} {bounds : List Bounds} {g : FlowGraph}

private theorem ofBounds_unrecorded (h : ofBounds f t bounds = .ok g) :
    g.blocks.toList.map Links.unrecorded =
      (bounds.map (Block.ofBounds f.code)).map Links.unrecorded := by
  have hall : List.Forall₂ Eq ((bounds.map (Block.ofBounds f.code)).map Links.unrecorded)
      (g.blocks.toList.map Links.unrecorded) := by
    simp only [List.forall₂_map_left_iff, List.forall₂_map_right_iff]
    apply (ofBounds_gains h).2.imp
    intro c b hb
    rw [hb.frame]
    rfl
  rw [List.forall₂_eq_eq_eq] at hall
  exact hall.symm

private theorem ofBounds_links (h : ofBounds f t bounds = .ok g) :
    g.edges = Links.edges f.code g.blocks.toList ∧
    g.entry = Links.entry g.blocks.toList g.edges ∧
    g.exit = Links.exit f.code g.blocks.toList g.edges := by
  have hsame := ofBounds_unrecorded h
  rw [← Links.edges_unrecorded, ← Links.entry_unrecorded, ← Links.exit_unrecorded, hsame,
    Links.edges_unrecorded, Links.entry_unrecorded, Links.exit_unrecorded, ofBounds_frame h]
  exact ⟨rfl, rfl, rfl⟩

private theorem length_succs_le {code : List Instruction}
    (hedges : g.edges = Links.edges code g.blocks.toList) {id : Nat} (hid : id < g.blocks.size) :
    (g.succs id).length ≤ 2 := by
  have hb : g.blocks.toList[id]? = some g.blocks[id] := by simp [hid]
  have hsub : g.succs id ⊆ Links.targets code g.blocks.toList id g.blocks[id] := by
    intro next hnext
    rw [mem_succs, hedges, Links.mem_edges, hb] at hnext
    simpa using hnext
  have hnodup : (g.succs id).Nodup := by
    apply List.Nodup.map_on
    · intro e he e' he' heq
      simp only [List.mem_filter, decide_eq_true_eq] at he he'
      exact Prod.ext (he.2.trans he'.2.symm) heq
    · rw [hedges]
      exact (Links.nodup_edges code g.blocks.toList).filter _
  calc (g.succs id).length
      ≤ (Links.targets code g.blocks.toList id g.blocks[id]).length :=
        (List.subperm_of_subset hnodup hsub).length_le
    _ ≤ 2 := Links.length_targets_le code g.blocks.toList id g.blocks[id]

/-- The edges of a built graph are all different. Successors and predecessors are what the edges
say, in their order, also if they are kept in tables while the edges are found. A block has at most
two successors. The first block is the entry unless an edge leads to it, and the block that ends the
function is the exit unless an edge leads away from it. -/
theorem Built.neighbours_agree (h : g.Built f t) :
    g.edges.Nodup ∧
    (∃ tables, Links.Tables.link? f.code g.blocks.toList = some tables ∧ tables.edges = g.edges ∧
      ∀ id < g.blocks.size, tables.succs[id]? = some (g.succs id) ∧
        tables.preds[id]? = some (g.preds id)) ∧
    (∀ id < g.blocks.size,
      g.succs id = (g.edges.filter fun e => e.1 = id).map Prod.snd ∧
      g.preds id = (g.edges.filter fun e => e.2 = id).map Prod.fst ∧
      (g.succs id).length ≤ 2) ∧
    (∀ id, g.entry = some id ↔ id = 0 ∧ f.code ≠ [] ∧ ∀ e ∈ g.edges, e.2 ≠ id) ∧
    ∀ id, g.exit = some id ↔
      Links.IsExit f.code g.blocks.toList id ∧ f.code ≠ [] ∧ ∀ e ∈ g.edges, e.1 ≠ id := by
  obtain ⟨bounds, hg⟩ := h.exists_ofBounds
  obtain ⟨hedges, hentry, hexit⟩ := ofBounds_links hg
  obtain ⟨tables, hlink, htables, hagree⟩ := Links.exists_link f.code g.blocks.toList
  rw [← hedges] at htables
  have hempty : g.blocks.toList ≠ [] ↔ f.code ≠ [] := by
    have hdescribes := ofBounds_describes hg
    rw [not_iff_not, ← List.length_eq_zero_iff (l := f.code), ← hdescribes.tiles.eq_nil_iff,
      ← hdescribes.bounds_eq, List.map_eq_nil_iff]
  refine ⟨htables ▸ hagree.nodup, ⟨tables, hlink, htables, ?_⟩, ?_, ?_, ?_⟩
  · intro id hid
    rw [hagree.succs.get id hid, hagree.preds.get id hid, htables]
    exact ⟨rfl, rfl⟩
  · intro id hid
    exact ⟨rfl, rfl, length_succs_le hedges hid⟩
  · intro id
    rw [hentry, Links.entry_eq_some_iff, hempty]
  · intro id
    rw [hexit, Links.exit_eq_some_iff, hempty]

/-- The branch of the first block comes before its next block, and the return leads to the exit. -/
theorem leave_neighbours_agree : ∃ g, FlowGraph.build leave spinTable = .ok g ∧
    g.edges = [(0, 2), (0, 1), (1, 2)] ∧
    (∃ tables, Links.Tables.link? leave.code g.blocks.toList = some tables ∧
      tables.succs[0]? = some [2, 1] ∧ tables.preds[2]? = some [0, 1]) ∧
    (g.succs 0).length ≤ 2 ∧ g.entry = some 0 ∧ g.exit = some 2 ∧
    Links.IsExit leave.code g.blocks.toList 2 := by
  obtain ⟨g, hg, hedges, hsize, hexit⟩ : ∃ g, FlowGraph.build leave spinTable = .ok g ∧
      g.edges = [(0, 2), (0, 1), (1, 2)] ∧ g.blocks.size = 3 ∧ g.exit = some 2 :=
    ⟨_, rfl, by decide, by decide, by decide⟩
  obtain ⟨_, ⟨tables, hlink, _, htables⟩, hlists, hentry, hends⟩ :=
    Built.neighbours_agree (.build hg)
  refine ⟨g, hg, hedges, ⟨tables, hlink, ?_, ?_⟩, ?_, ?_, hexit, ((hends 2).mp hexit).1⟩
  · rw [(htables 0 (by omega)).1, (hlists 0 (by omega)).1, hedges]
    rfl
  · rw [(htables 2 (by omega)).2, (hlists 2 (by omega)).2.1, hedges]
    rfl
  · exact (hlists 0 (by omega)).2.2
  · rw [hentry, hedges]
    decide

end FlowGraph

end RegisterColoring
