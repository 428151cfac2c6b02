import RegisterColoring.Live.Sets
import RegisterColoring.Proofs.Flow.Built
import Mathlib.Data.List.Perm.Subperm
/-!
# The fixed point of the live sets

While the blocks are swept their sets only grow, and a variable enters a set only if a later
use justifies it. The number of members bounds the number of sweeps, so the last sweep changes
nothing and the sets satisfy their equations.
-/
namespace RegisterColoring

namespace VarSet

private theorem nodup_toList (s : VarSet) : s.toList.Nodup :=
  s.ascending.imp Nat.ne_of_lt

private theorem length_le_of_subset {s t : VarSet} (h : ∀ v ∈ s, v ∈ t) :
    s.toList.length ≤ t.toList.length :=
  (List.subperm_of_subset s.nodup_toList h).length_le

private theorem length_lt_of_subset {s t : VarSet} (h : ∀ v ∈ s, v ∈ t) (hne : s ≠ t) :
    s.toList.length < t.toList.length := by
  by_contra hlen
  have hperm := (List.subperm_of_subset s.nodup_toList h).perm_of_length_le (Nat.not_lt.mp hlen)
  apply hne
  ext v
  exact hperm.mem_iff

private theorem length_le_of_lt {s : VarSet} {size : Nat} (h : ∀ v ∈ s, v < size) :
    s.toList.length ≤ size := by
  have hsub : s.toList ⊆ List.range size := by
    intro v hv
    exact List.mem_range.mpr (h v hv)
  have hle := (List.subperm_of_subset s.nodup_toList hsub).length_le
  rwa [List.length_range] at hle

end VarSet

private theorem Mentions.mem_ids {m : Mentions} {v : Nat} : v ∈ m.ids ↔ v ∈ m.linesOf := by
  rw [ids, VarSet.mem_ofList, Std.TreeMap.mem_keys]

theorem Block.mem_liveBefore {b : Block} {out : VarSet} {v : Nat} :
    v ∈ b.liveBefore out ↔ v ∈ b.uses.linesOf ∨ (v ∈ out ∧ v ∉ b.defs.linesOf) := by
  rw [liveBefore, VarSet.mem_union, Mentions.mem_ids, VarSet.mem_filter, Bool.not_eq_true',
    ← Bool.not_eq_true, Std.TreeMap.contains_iff_mem]

theorem Block.mem_referenced {b : Block} {v : Nat} : v ∈ b.referenced ↔
    v ∈ b.uses.linesOf ∨ v ∈ b.defs.linesOf ∨ v ∈ b.liveIn ∨ v ∈ b.liveOut := by
  simp [referenced, Mentions.mem_ids]

namespace FlowGraph

/-- The variables that the sets require to be live on exit of a block. -/
def outOf (g : FlowGraph) (blocks : Array Block) (id : Nat) : VarSet :=
  VarSet.unions ((g.succs id).map (liveInOf blocks))

def refresh (g : FlowGraph) (blocks : Array Block) (id : Nat) (b : Block) : Array Block :=
  blocks.setIfInBounds id
    { b with liveIn := b.liveBefore (g.outOf blocks id), liveOut := g.outOf blocks id }

/-- The sets of block `id` satisfy their equations. -/
def Settled (g : FlowGraph) (blocks : Array Block) (id : Nat) : Prop :=
  ∀ b, blocks[id]? = some b →
    b.liveIn = b.liveBefore (g.outOf blocks id) ∧ b.liveOut = g.outOf blocks id

theorem mem_liveInOf {blocks : Array Block} {id v : Nat} :
    v ∈ liveInOf blocks id ↔ ∃ b, blocks[id]? = some b ∧ v ∈ b.liveIn := by
  unfold liveInOf
  cases blocks[id]? <;> simp

theorem mem_outOf {g : FlowGraph} {blocks : Array Block} {id v : Nat} :
    v ∈ g.outOf blocks id ↔ ∃ next ∈ g.succs id, v ∈ liveInOf blocks next := by
  simp [outOf]

theorem getElem?_refresh (g : FlowGraph) {blocks : Array Block} {id : Nat} {b : Block}
    (hb : blocks[id]? = some b) (j : Nat) :
    (g.refresh blocks id b)[j]? = if j = id then
      some { b with liveIn := b.liveBefore (g.outOf blocks id), liveOut := g.outOf blocks id }
      else blocks[j]? := by
  have hlt := (Array.getElem?_eq_some_iff.mp hb).1
  rw [refresh, Array.getElem?_setIfInBounds]
  by_cases hj : j = id
  · subst hj
    simp [hlt]
  · simp [hj, Ne.symm hj]

theorem visit_cases (g : FlowGraph) (state : Array Block × Bool) (id : Nat) :
    (g.visit state id = state ∧ g.Settled state.1 id) ∨
      ∃ b, state.1[id]? = some b ∧ ¬ g.Settled state.1 id ∧
        g.visit state id = (g.refresh state.1 id b, true) := by
  cases hb : state.1[id]? with
  | none =>
    left
    refine ⟨by simp [visit, hb], ?_⟩
    intro b hb'
    rw [hb] at hb'
    cases hb'
  | some b =>
    by_cases heq : b.liveIn = b.liveBefore (g.outOf state.1 id) ∧ b.liveOut = g.outOf state.1 id
    · left
      refine ⟨?_, ?_⟩
      · simp only [visit, hb]
        exact if_pos heq
      · intro c hc
        rw [hb, Option.some.injEq] at hc
        exact hc ▸ heq
    · right
      refine ⟨b, rfl, fun hs => heq (hs b hb), ?_⟩
      simp only [visit, hb]
      exact if_neg heq

section Invariant
variable (g : FlowGraph) (P : Array Block → Prop)
  (hstep : ∀ blocks id b, P blocks → blocks[id]? = some b → P (g.refresh blocks id b))
include hstep

private theorem visits_preserve (ids : List Nat) (state : Array Block × Bool) (h : P state.1) :
    P (ids.foldl g.visit state).1 := by
  induction ids generalizing state with
  | nil => exact h
  | cons id ids ih =>
    apply ih
    rcases g.visit_cases state id with ⟨he, _⟩ | ⟨b, hb, _, he⟩
    · rw [he]
      exact h
    · rw [he]
      exact hstep _ _ _ h hb

/-- What every update of a block keeps is kept by the whole iteration. -/
theorem sweeps_preserve (limit : Nat) (blocks : Array Block) (h : P blocks) :
    P (g.sweeps limit blocks).1 := by
  induction limit generalizing blocks with
  | zero => exact h
  | succ limit ih =>
    have hsweep : P (g.sweep blocks).1 := g.visits_preserve P hstep _ (blocks, false) h
    unfold sweeps
    split
    · next blocks' he =>
      rw [he] at hsweep
      exact hsweep
    · next blocks' he =>
      rw [he] at hsweep
      exact ih blocks' hsweep

end Invariant

private theorem visits_changed (g : FlowGraph) (ids : List Nat) (blocks : Array Block) :
    (ids.foldl g.visit (blocks, true)).2 = true := by
  induction ids generalizing blocks with
  | nil => rfl
  | cons id ids ih =>
    rw [List.foldl_cons]
    rcases g.visit_cases (blocks, true) id with ⟨he, _⟩ | ⟨b, _, _, he⟩
    · rw [he]
      exact ih blocks
    · rw [he]
      exact ih _

private theorem visits_unchanged (g : FlowGraph) (ids : List Nat) (blocks : Array Block)
    (h : (ids.foldl g.visit (blocks, false)).2 = false) :
    (ids.foldl g.visit (blocks, false)).1 = blocks ∧ ∀ id ∈ ids, g.Settled blocks id := by
  induction ids with
  | nil => exact ⟨rfl, by simp⟩
  | cons id ids ih =>
    rw [List.foldl_cons] at h ⊢
    rcases g.visit_cases (blocks, false) id with ⟨he, hs⟩ | ⟨b, _, _, he⟩
    · rw [he] at h ⊢
      obtain ⟨hsame, hall⟩ := ih h
      refine ⟨hsame, ?_⟩
      intro id' hid'
      rcases List.mem_cons.mp hid' with rfl | hid'
      · exact hs
      · exact hall id' hid'
    · rw [he, visits_changed] at h
      cases h

/-- A sweep without a change leaves the blocks as they were, and all of them were settled. -/
theorem sweep_unchanged (g : FlowGraph) (blocks : Array Block)
    (h : (g.sweep blocks).2 = false) :
    (g.sweep blocks).1 = blocks ∧ ∀ id, g.Settled blocks id := by
  obtain ⟨hsame, hall⟩ := g.visits_unchanged _ blocks h
  refine ⟨hsame, ?_⟩
  intro id b hb
  have hlt := (Array.getElem?_eq_some_iff.mp hb).1
  exact hall id (by simpa using hlt) b hb

/-- From the entry of block `id` control may reach a use of the variable in some block, and no
block passed before that defines it. -/
inductive UsedFrom (g : FlowGraph) (v : Nat) : Nat → Prop
  | here {id : Nat} {b : Block} (hb : g.blocks[id]? = some b) (hv : v ∈ b.uses.linesOf) :
    UsedFrom g v id
  | later {id next : Nat} {b : Block} (hb : g.blocks[id]? = some b) (hnext : next ∈ g.succs id)
    (hv : v ∉ b.defs.linesOf) (h : UsedFrom g v next) : UsedFrom g v id

theorem UsedFrom.lt {g : FlowGraph} {size : Nat}
    (huses : ∀ b ∈ g.blocks, ∀ v ∈ b.uses.linesOf, v < size) {v id : Nat}
    (h : g.UsedFrom v id) : v < size := by
  induction h with
  | here hb hv => exact huses _ (Array.mem_of_getElem? hb) v hv
  | later _ _ _ _ ih => exact ih

/-- The blocks of a graph at some point of the analysis of its live sets. -/
structure Partway (g : FlowGraph) (blocks : Array Block) : Prop where
  skeleton : blocks.map Block.skeleton = g.blocks.map Block.skeleton
  rising : ∀ id b, blocks[id]? = some b →
    (∀ v ∈ b.liveIn, v ∈ b.liveBefore (g.outOf blocks id)) ∧
      ∀ v ∈ b.liveOut, v ∈ g.outOf blocks id
  justified : ∀ id b, blocks[id]? = some b →
    (∀ v ∈ b.liveIn, g.UsedFrom v id) ∧ ∀ v ∈ b.liveOut, ∃ next ∈ g.succs id, g.UsedFrom v next

theorem exists_of_skeleton {blocks blocks' : Array Block}
    (h : blocks.map Block.skeleton = blocks'.map Block.skeleton) {id : Nat} {b : Block}
    (hb : blocks[id]? = some b) : ∃ c, blocks'[id]? = some c ∧ c.skeleton = b.skeleton := by
  have hmap : (blocks'.map Block.skeleton)[id]? = some b.skeleton := by
    rw [← h, Array.getElem?_map, hb]
    rfl
  rw [Array.getElem?_map] at hmap
  exact Option.map_eq_some_iff.mp hmap

private theorem skeleton_refresh (g : FlowGraph) {blocks : Array Block} {id : Nat} {b : Block}
    (hb : blocks[id]? = some b) :
    (g.refresh blocks id b).map Block.skeleton = blocks.map Block.skeleton := by
  apply Array.ext_getElem?
  intro j
  rw [Array.getElem?_map, Array.getElem?_map, g.getElem?_refresh hb]
  split
  · next hj =>
    rw [hj, hb]
    rfl
  · rfl

namespace Partway
variable {g : FlowGraph} {blocks : Array Block}

theorem start (g : FlowGraph) : g.Partway (g.blocks.map Block.withoutLiveness) where
  skeleton := by
    rw [Array.map_map]
    rfl
  rising id b hb := by
    rw [Array.getElem?_map] at hb
    obtain ⟨c, _, rfl⟩ := Option.map_eq_some_iff.mp hb
    simp [Block.withoutLiveness]
  justified id b hb := by
    rw [Array.getElem?_map] at hb
    obtain ⟨c, _, rfl⟩ := Option.map_eq_some_iff.mp hb
    simp [Block.withoutLiveness]

private theorem liveInOf_refresh (h : g.Partway blocks) {id : Nat} {b : Block}
    (hb : blocks[id]? = some b) {j v : Nat} (hv : v ∈ liveInOf blocks j) :
    v ∈ liveInOf (g.refresh blocks id b) j := by
  obtain ⟨c, hc, hvc⟩ := mem_liveInOf.mp hv
  rw [mem_liveInOf, g.getElem?_refresh hb]
  split
  · next hj =>
    rw [hj, hb, Option.some.injEq] at hc
    exact ⟨_, rfl, (h.rising id b hb).1 v (hc ▸ hvc)⟩
  · exact ⟨c, hc, hvc⟩

private theorem outOf_refresh (h : g.Partway blocks) {id : Nat} {b : Block}
    (hb : blocks[id]? = some b) {j v : Nat} (hv : v ∈ g.outOf blocks j) :
    v ∈ g.outOf (g.refresh blocks id b) j := by
  obtain ⟨next, hnext, hvn⟩ := mem_outOf.mp hv
  exact mem_outOf.mpr ⟨next, hnext, h.liveInOf_refresh hb hvn⟩

private theorem usedFrom_of_outOf (h : g.Partway blocks) {id v : Nat}
    (hv : v ∈ g.outOf blocks id) : ∃ next ∈ g.succs id, g.UsedFrom v next := by
  obtain ⟨next, hnext, hvn⟩ := mem_outOf.mp hv
  obtain ⟨b, hb, hvb⟩ := mem_liveInOf.mp hvn
  exact ⟨next, hnext, (h.justified next b hb).1 v hvb⟩

private theorem usedFrom_of_liveBefore (h : g.Partway blocks) {id : Nat} {b : Block}
    (hb : blocks[id]? = some b) {v : Nat} (hv : v ∈ b.liveBefore (g.outOf blocks id)) :
    g.UsedFrom v id := by
  obtain ⟨c, hc, hskel⟩ := exists_of_skeleton h.skeleton hb
  have huses := Block.eq_of_skeleton Block.uses (fun _ => rfl) hskel
  have hdefs := Block.eq_of_skeleton Block.defs (fun _ => rfl) hskel
  rcases Block.mem_liveBefore.mp hv with huse | ⟨hout, hdef⟩
  · exact .here hc (huses ▸ huse)
  · obtain ⟨next, hnext, hused⟩ := h.usedFrom_of_outOf hout
    exact .later hc hnext (hdefs ▸ hdef) hused

theorem refresh (h : g.Partway blocks) {id : Nat} {b : Block} (hb : blocks[id]? = some b) :
    g.Partway (g.refresh blocks id b) where
  skeleton := (g.skeleton_refresh hb).trans h.skeleton
  rising j c hc := by
    have hmono : ∀ {d : Block} {v : Nat}, v ∈ d.liveBefore (g.outOf blocks j) →
        v ∈ d.liveBefore (g.outOf (g.refresh blocks id b) j) := by
      intro d v hv
      rw [Block.mem_liveBefore] at hv ⊢
      exact hv.imp_right fun hv => ⟨h.outOf_refresh hb hv.1, hv.2⟩
    rw [g.getElem?_refresh hb] at hc
    split at hc
    · next hj =>
      subst hj
      rw [Option.some.injEq] at hc
      subst hc
      exact ⟨fun v hv => hmono (d := b) hv, fun v hv => h.outOf_refresh hb hv⟩
    · obtain ⟨hin, hout⟩ := h.rising j c hc
      exact ⟨fun v hv => hmono (hin v hv), fun v hv => h.outOf_refresh hb (hout v hv)⟩
  justified j c hc := by
    rw [g.getElem?_refresh hb] at hc
    split at hc
    · next hj =>
      subst hj
      rw [Option.some.injEq] at hc
      subst hc
      exact ⟨fun v hv => h.usedFrom_of_liveBefore hb hv, fun v hv => h.usedFrom_of_outOf hv⟩
    · exact h.justified j c hc

end Partway

def members (b : Block) : Nat := b.liveIn.toList.length + b.liveOut.toList.length

def weight (blocks : Array Block) : Nat :=
  blocks.toList.foldr (fun b total => members b + total) 0

private theorem members_set_lt {blocks : List Block} {id : Nat} {b c : Block}
    (hb : blocks[id]? = some b) (hlt : members b < members c) :
    blocks.foldr (fun b total => members b + total) 0 <
      (blocks.set id c).foldr (fun b total => members b + total) 0 := by
  induction blocks generalizing id with
  | nil => simp at hb
  | cons d blocks ih =>
    cases id with
    | zero =>
      have hdb : d = b := by simpa using hb
      simpa [hdb] using hlt
    | succ id =>
      have hget : blocks[id]? = some b := by simpa using hb
      simpa using ih hget

private theorem members_le {bound : Nat} (blocks : List Block)
    (h : ∀ b ∈ blocks, members b ≤ bound) :
    blocks.foldr (fun b total => members b + total) 0 ≤ blocks.length * bound := by
  induction blocks with
  | nil => simp
  | cons b blocks ih =>
    have hb := h b (by simp)
    have hrest := ih fun c hc => h c (by simp [hc])
    rw [List.foldr_cons, List.length_cons, Nat.succ_mul]
    omega

namespace Partway
variable {g : FlowGraph} {blocks : Array Block}

private theorem weight_refresh_lt (h : g.Partway blocks) {id : Nat} {b : Block}
    (hb : blocks[id]? = some b) (hs : ¬ g.Settled blocks id) :
    weight blocks < weight (g.refresh blocks id b) := by
  obtain ⟨hin, hout⟩ := h.rising id b hb
  have hle := VarSet.length_le_of_subset hin
  have hle' := VarSet.length_le_of_subset hout
  have hlt : members b < members { b with
      liveIn := b.liveBefore (g.outOf blocks id), liveOut := g.outOf blocks id } := by
    simp only [members]
    by_cases hne : b.liveIn = b.liveBefore (g.outOf blocks id)
    · have hne' : b.liveOut ≠ g.outOf blocks id := by
        intro he
        apply hs
        intro c hc
        rw [hb, Option.some.injEq] at hc
        exact hc ▸ ⟨hne, he⟩
      have := VarSet.length_lt_of_subset hout hne'
      omega
    · have := VarSet.length_lt_of_subset hin hne
      omega
  unfold weight FlowGraph.refresh
  rw [Array.toList_setIfInBounds]
  exact members_set_lt (by rw [Array.getElem?_toList]; exact hb) hlt

private theorem weight_visits_le (h : g.Partway blocks) (ids : List Nat) (changed : Bool) :
    weight blocks ≤ weight (ids.foldl g.visit (blocks, changed)).1 := by
  induction ids generalizing blocks changed with
  | nil => exact Nat.le_refl _
  | cons id ids ih =>
    rw [List.foldl_cons]
    rcases g.visit_cases (blocks, changed) id with ⟨he, _⟩ | ⟨b, hb, hs, he⟩
    · rw [he]
      exact ih h changed
    · rw [he]
      exact Nat.le_of_lt (Nat.lt_of_lt_of_le (h.weight_refresh_lt hb hs) (ih (h.refresh hb) true))

theorem weight_visits_lt (h : g.Partway blocks) (ids : List Nat)
    (hc : (ids.foldl g.visit (blocks, false)).2 = true) :
    weight blocks < weight (ids.foldl g.visit (blocks, false)).1 := by
  induction ids with
  | nil => cases hc
  | cons id ids ih =>
    rw [List.foldl_cons] at hc ⊢
    rcases g.visit_cases (blocks, false) id with ⟨he, _⟩ | ⟨b, hb, hs, he⟩
    · rw [he] at hc ⊢
      exact ih hc
    · rw [he]
      exact Nat.lt_of_lt_of_le (h.weight_refresh_lt hb hs)
        ((h.refresh hb).weight_visits_le ids true)

theorem weight_le (h : g.Partway blocks) {size : Nat}
    (huses : ∀ b ∈ g.blocks, ∀ v ∈ b.uses.linesOf, v < size) :
    weight blocks ≤ 2 * blocks.size * size := by
  have hblock : ∀ b ∈ blocks.toList, members b ≤ 2 * size := by
    intro b hb
    obtain ⟨id, hid⟩ := List.mem_iff_getElem?.mp hb
    rw [Array.getElem?_toList] at hid
    obtain ⟨hin, hout⟩ := h.justified id b hid
    have hin' : ∀ v ∈ b.liveIn, v < size := fun v hv => (hin v hv).lt huses
    have hout' : ∀ v ∈ b.liveOut, v < size := by
      intro v hv
      obtain ⟨next, _, hused⟩ := hout v hv
      exact hused.lt huses
    have hle := VarSet.length_le_of_lt hin'
    have hle' := VarSet.length_le_of_lt hout'
    unfold members
    omega
  have hsum := members_le blocks.toList hblock
  rw [Array.length_toList] at hsum
  calc weight blocks ≤ blocks.size * (2 * size) := hsum
    _ = 2 * blocks.size * size := by rw [← Nat.mul_assoc, Nat.mul_comm blocks.size 2]

private theorem settled_sweeps {size limit : Nat} (h : g.Partway blocks)
    (huses : ∀ b ∈ g.blocks, ∀ v ∈ b.uses.linesOf, v < size)
    (hlimit : 2 * blocks.size * size < weight blocks + limit) :
    ∀ id, g.Settled (g.sweeps limit blocks).1 id := by
  -- a sweep that changes something adds weight, so the distance to the bound pays for it
  induction limit generalizing blocks with
  | zero =>
    have := h.weight_le huses
    omega
  | succ limit ih =>
    unfold sweeps
    split
    · next blocks' he =>
      have hsame := g.sweep_unchanged blocks (by rw [he])
      rw [he] at hsame
      obtain ⟨rfl, hall⟩ := hsame
      exact hall
    · next blocks' he =>
      have hpart : g.Partway (g.sweep blocks).1 :=
        g.visits_preserve g.Partway (fun _ _ _ h hb => h.refresh hb) _ (blocks, false) h
      have hlt : weight blocks < weight (g.sweep blocks).1 :=
        h.weight_visits_lt _ (by change (g.sweep blocks).2 = true; rw [he])
      have hsize : (g.sweep blocks).1.size = blocks.size := by
        have hskel := hpart.skeleton.trans h.skeleton.symm
        simpa using congrArg Array.size hskel
      rw [he] at hpart hlt hsize
      change g.Partway blocks' at hpart
      change weight blocks < weight blocks' at hlt
      change blocks'.size = blocks.size at hsize
      apply ih hpart
      rw [hsize]
      omega

end Partway

private theorem blocks_analyzeSets (g : FlowGraph) : g.analyzeSets.1.blocks =
    (g.sweeps g.sweepLimit (g.blocks.map Block.withoutLiveness)).1 :=
  rfl

theorem partway_analyzeSets (g : FlowGraph) : g.Partway g.analyzeSets.1.blocks := by
  rw [blocks_analyzeSets]
  exact g.sweeps_preserve g.Partway (fun _ _ _ h hb => h.refresh hb) _ _ (.start g)

/-- The live sets of an analysed graph satisfy their equations. -/
theorem settled_analyzeSets {g : FlowGraph}
    (huses : ∀ b ∈ g.blocks, ∀ v ∈ b.uses.linesOf, v < g.vars.size) (id : Nat) :
    g.Settled g.analyzeSets.1.blocks id := by
  rw [blocks_analyzeSets]
  apply (Partway.start g).settled_sweeps huses
  rw [sweepLimit, Array.size_map]
  omega

end FlowGraph

end RegisterColoring
