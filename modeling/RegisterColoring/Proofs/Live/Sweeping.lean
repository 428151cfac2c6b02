import RegisterColoring.Proofs.Live.Paths
import Mathlib.Combinatorics.Pigeonhole
/-!
# How many sweeps there are

A sweep carries every variable at least one edge further against the flow of control. A use that
can be reached at all is reached by a path that enters no block twice, so after as many sweeps as
there are blocks the sets on entry are complete. One more sweep completes the sets on exit, and
the next one changes nothing.
-/
namespace RegisterColoring

namespace FlowGraph

/-- Sweeping until nothing changes leads from `blocks` to `final` in `count` sweeps, the one
without a change included. No limit is set. -/
inductive SweepsTo (g : FlowGraph) : Array Block → Array Block → Nat → Prop
  | done {blocks final : Array Block} (h : g.sweep blocks = (final, false)) :
    SweepsTo g blocks final 1
  | again {blocks next final : Array Block} {count : Nat} (h : g.sweep blocks = (next, true))
    (rest : SweepsTo g next final count) : SweepsTo g blocks final (count + 1)

namespace LivePath
variable {g : FlowGraph} {v id n : Nat} {path : Nat → Nat}

private theorem lt_size (h : g.LivePath v id n path) (hedge : ∀ e ∈ g.edges, e.1 < g.blocks.size)
    {i : Nat} (hi : i ≤ n) : path i < g.blocks.size := by
  rcases Nat.lt_or_eq_of_le hi with hlt | rfl
  · exact hedge _ (mem_succs.mp (h.edges i hlt))
  · obtain ⟨b, hb, _⟩ := h.used
    exact (Array.getElem?_eq_some_iff.mp hb).1

def without (path : Nat → Nat) (i j k : Nat) : Nat := if k ≤ i then path k else path (k + (j - i))

private theorem without_of_le {i j k : Nat} (h : k ≤ i) : without path i j k = path k :=
  if_pos h

private theorem without_of_ge {i j k : Nat} (hij : i ≤ j) (heq : path i = path j) (h : i ≤ k) :
    without path i j k = path (k + (j - i)) := by
  rcases Nat.lt_or_eq_of_le h with hlt | rfl
  · exact if_neg (Nat.not_le.mpr hlt)
  · rw [without_of_le (Nat.le_refl i), heq, Nat.add_sub_cancel' hij]

private theorem cut (h : g.LivePath v id n path) {i j : Nat} (hij : i < j) (hj : j ≤ n)
    (heq : path i = path j) : g.LivePath v id (n - (j - i)) (without path i j) where
  start := (without_of_le (Nat.zero_le i)).trans h.start
  edges k hk := by
    by_cases hlt : k < i
    · rw [without_of_le (Nat.le_of_lt hlt), without_of_le hlt]
      exact h.edges k (by omega)
    · have hge : i ≤ k := Nat.not_lt.mp hlt
      rw [without_of_ge (Nat.le_of_lt hij) heq hge,
        without_of_ge (Nat.le_of_lt hij) heq (Nat.le_succ_of_le hge), Nat.succ_add]
      exact h.edges (k + (j - i)) (by omega)
  used := by
    have hend : n - (j - i) + (j - i) = n := by omega
    rw [without_of_ge (Nat.le_of_lt hij) heq (by omega), hend]
    exact h.used
  clear k hk := by
    by_cases hle : k ≤ i
    · rw [without_of_le hle]
      exact h.clear k (by omega)
    · rw [without_of_ge (Nat.le_of_lt hij) heq (by omega)]
      exact h.clear (k + (j - i)) (by omega)

/-- A path with as many edges as there are blocks can be shortened. -/
theorem exists_short (h : g.LivePath v id n path) (hedge : ∀ e ∈ g.edges, e.1 < g.blocks.size) :
    ∃ m path', g.LivePath v id m path' ∧ m < g.blocks.size := by
  induction n using Nat.strong_induction_on generalizing path with
  | _ n ih =>
    by_cases hlt : n < g.blocks.size
    · exact ⟨n, path, h, hlt⟩
    · have hcard : (Finset.range g.blocks.size).card < (Finset.range (n + 1)).card := by
        simp only [Finset.card_range]
        omega
      have hmaps : ∀ i ∈ Finset.range (n + 1), path i ∈ Finset.range g.blocks.size := by
        intro i hi
        have hle : i ≤ n := Nat.lt_succ_iff.mp (Finset.mem_range.mp hi)
        exact Finset.mem_range.mpr (h.lt_size hedge hle)
      obtain ⟨i, hi, j, hj, hne, heq⟩ :=
        Finset.exists_ne_map_eq_of_card_lt_of_maps_to hcard hmaps
      rw [Finset.mem_range] at hi hj
      rcases Nat.lt_or_gt_of_ne hne with hij | hji
      · exact ih (n - (j - i)) (by omega) (h.cut hij (by omega) heq)
      · exact ih (n - (i - j)) (by omega) (h.cut hji (by omega) heq.symm)

end LivePath

/-- The blocks are the same, and no set has lost a member. -/
structure Grows (blocks later : Array Block) : Prop where
  skeleton : later.map Block.skeleton = blocks.map Block.skeleton
  liveIn : ∀ (id : Nat) (b c : Block), blocks[id]? = some b → later[id]? = some c →
    ∀ v ∈ b.liveIn, v ∈ c.liveIn
  liveOut : ∀ (id : Nat) (b c : Block), blocks[id]? = some b → later[id]? = some c →
    ∀ v ∈ b.liveOut, v ∈ c.liveOut

namespace Grows
variable {blocks later last : Array Block}

private theorem refl (blocks : Array Block) : Grows blocks blocks where
  skeleton := rfl
  liveIn id b c hb hc v hv := by
    rw [hb, Option.some.injEq] at hc
    exact hc ▸ hv
  liveOut id b c hb hc v hv := by
    rw [hb, Option.some.injEq] at hc
    exact hc ▸ hv

private theorem trans (h : Grows blocks later) (h' : Grows later last) : Grows blocks last where
  skeleton := h'.skeleton.trans h.skeleton
  liveIn id b c hb hc v hv := by
    obtain ⟨d, hd, _⟩ := exists_of_skeleton h.skeleton.symm hb
    exact h'.liveIn id d c hd hc v (h.liveIn id b d hb hd v hv)
  liveOut id b c hb hc v hv := by
    obtain ⟨d, hd, _⟩ := exists_of_skeleton h.skeleton.symm hb
    exact h'.liveOut id d c hd hc v (h.liveOut id b d hb hd v hv)

private theorem mem_outOf (h : Grows blocks later) {g : FlowGraph} {id v : Nat}
    (hv : v ∈ g.outOf blocks id) : v ∈ g.outOf later id := by
  obtain ⟨next, hnext, hvn⟩ := FlowGraph.mem_outOf.mp hv
  obtain ⟨b, hb, hvb⟩ := mem_liveInOf.mp hvn
  obtain ⟨c, hc, _⟩ := exists_of_skeleton h.skeleton.symm hb
  have hvc := h.liveIn next b c hb hc v hvb
  exact FlowGraph.mem_outOf.mpr ⟨next, hnext, mem_liveInOf.mpr ⟨c, hc, hvc⟩⟩

end Grows

/-- In `later` the sets of block `id` hold at least what their equations give in `blocks`. -/
def Covers (g : FlowGraph) (blocks later : Array Block) (id : Nat) : Prop :=
  ∀ b, later[id]? = some b → (∀ v ∈ b.liveBefore (g.outOf blocks id), v ∈ b.liveIn) ∧
    ∀ v ∈ g.outOf blocks id, v ∈ b.liveOut

private theorem Covers.mono {g : FlowGraph} {blocks blocks' later later' : Array Block} {id : Nat}
    (h : g.Covers blocks later id) (hbefore : Grows blocks' blocks) (hafter : Grows later later') :
    g.Covers blocks' later' id := by
  intro c hc
  obtain ⟨b, hb, hskel⟩ := exists_of_skeleton hafter.skeleton hc
  obtain ⟨hin, hout⟩ := h b hb
  have huses := Block.eq_of_skeleton Block.uses (fun _ => rfl) hskel
  have hdefs := Block.eq_of_skeleton Block.defs (fun _ => rfl) hskel
  constructor
  · intro v hv
    apply hafter.liveIn id b c hb hc v
    apply hin v
    rw [Block.mem_liveBefore, ← huses, ← hdefs] at hv
    exact Block.mem_liveBefore.mpr (hv.imp_right fun hv => ⟨hbefore.mem_outOf hv.1, hv.2⟩)
  · intro v hv
    exact hafter.liveOut id b c hb hc v (hout v (hbefore.mem_outOf hv))

namespace Partway
variable {g : FlowGraph} {blocks : Array Block}

private theorem grows_refresh (h : g.Partway blocks) {id : Nat} {b : Block}
    (hb : blocks[id]? = some b) :
    Grows blocks (g.refresh blocks id b) := by
  obtain ⟨hin, hout⟩ := h.rising id b hb
  have hcases : ∀ (j : Nat) (c d : Block), blocks[j]? = some c →
      (g.refresh blocks id b)[j]? = some d → (c = b ∧
        d = { b with liveIn := b.liveBefore (g.outOf blocks id), liveOut := g.outOf blocks id }) ∨
      d = c := by
    intro j c d hc hd
    rw [g.getElem?_refresh hb] at hd
    split at hd
    · next hj =>
      rw [hj, hb, Option.some.injEq] at hc
      exact .inl ⟨hc.symm, (Option.some.inj hd).symm⟩
    · rw [hc, Option.some.injEq] at hd
      exact .inr hd.symm
  refine ⟨(h.refresh hb).skeleton.trans h.skeleton.symm, ?_, ?_⟩
  · intro j c d hc hd v hv
    rcases hcases j c d hc hd with ⟨rfl, rfl⟩ | rfl
    · exact hin v hv
    · exact hv
  · intro j c d hc hd v hv
    rcases hcases j c d hc hd with ⟨rfl, rfl⟩ | rfl
    · exact hout v hv
    · exact hv

private theorem visit (h : g.Partway blocks) (changed : Bool) (id : Nat) :
    g.Partway (g.visit (blocks, changed) id).1 ∧ Grows blocks (g.visit (blocks, changed) id).1 ∧
      g.Covers blocks (g.visit (blocks, changed) id).1 id := by
  rcases g.visit_cases (blocks, changed) id with ⟨he, hs⟩ | ⟨b, hb, _, he⟩
  · rw [he]
    refine ⟨h, .refl _, ?_⟩
    intro c hc
    obtain ⟨hin, hout⟩ := hs c hc
    exact ⟨fun v hv => hin ▸ hv, fun v hv => hout ▸ hv⟩
  · rw [he]
    refine ⟨h.refresh hb, h.grows_refresh hb, ?_⟩
    intro c hc
    change (g.refresh blocks id b)[id]? = some c at hc
    rw [g.getElem?_refresh hb, if_pos rfl, Option.some.injEq] at hc
    subst hc
    exact ⟨fun v hv => hv, fun v hv => hv⟩

private theorem visits (h : g.Partway blocks) (ids : List Nat) (changed : Bool) :
    g.Partway (ids.foldl g.visit (blocks, changed)).1 ∧
      Grows blocks (ids.foldl g.visit (blocks, changed)).1 ∧
      ∀ id ∈ ids, g.Covers blocks (ids.foldl g.visit (blocks, changed)).1 id := by
  induction ids generalizing blocks changed with
  | nil => exact ⟨h, .refl _, by simp⟩
  | cons id ids ih =>
    rw [List.foldl_cons]
    obtain ⟨hpart, hgrows, hcovers⟩ := h.visit changed id
    obtain ⟨hpart', hgrows', hcovers'⟩ := ih hpart (g.visit (blocks, changed) id).2
    refine ⟨hpart', hgrows.trans hgrows', ?_⟩
    intro j hj
    rcases List.mem_cons.mp hj with rfl | hj
    · exact hcovers.mono (.refl _) hgrows'
    · exact (hcovers' j hj).mono hgrows (.refl _)

/-- A sweep brings every block up to what its equations gave before the sweep. -/
theorem sweep (h : g.Partway blocks) : g.Partway (g.sweep blocks).1 ∧
    Grows blocks (g.sweep blocks).1 ∧ ∀ id, g.Covers blocks (g.sweep blocks).1 id := by
  obtain ⟨hpart, hgrows, hcovers⟩ := h.visits (List.range blocks.size).reverse false
  refine ⟨hpart, hgrows, ?_⟩
  intro id b hb
  have hsize : (g.sweep blocks).1.size = blocks.size := by
    have hskel : (g.sweep blocks).1.map Block.skeleton = blocks.map Block.skeleton := hgrows.skeleton
    simpa using congrArg Array.size hskel
  have hlt : id < blocks.size := hsize ▸ (Array.getElem?_eq_some_iff.mp hb).1
  exact hcovers id (by simpa using hlt) b hb

private theorem of_sweep (h : g.Partway blocks) {next : Array Block} {changed : Bool}
    (he : g.sweep blocks = (next, changed)) : g.Partway next := by
  have hpart := h.sweep.1
  rw [he] at hpart
  exact hpart

end Partway

/-- Every use at the end of a path of fewer than `n` edges is known on entry of the path. -/
def Reached (g : FlowGraph) (n : Nat) (blocks : Array Block) : Prop :=
  ∀ v id m path, m < n → g.LivePath v id m path → v ∈ liveInOf blocks id

namespace Partway
variable {g : FlowGraph} {blocks : Array Block}

/-- A sweep carries every variable one edge further. -/
theorem reached_sweep (h : g.Partway blocks) (hedge : ∀ e ∈ g.edges, e.1 < g.blocks.size)
    {n : Nat} (hn : g.Reached n blocks) : g.Reached (n + 1) (g.sweep blocks).1 := by
  obtain ⟨hpart, _, hcovers⟩ := h.sweep
  have hfind : ∀ {v id : Nat} {b : Block}, g.blocks[id]? = some b →
      v ∈ b.liveBefore (g.outOf blocks id) → v ∈ liveInOf (g.sweep blocks).1 id := by
    intro v id b hb hv
    obtain ⟨c, hc, hskel⟩ := exists_of_skeleton hpart.skeleton.symm hb
    have huses := Block.eq_of_skeleton Block.uses (fun _ => rfl) hskel
    have hdefs := Block.eq_of_skeleton Block.defs (fun _ => rfl) hskel
    rw [Block.mem_liveBefore, ← huses, ← hdefs, ← Block.mem_liveBefore] at hv
    exact mem_liveInOf.mpr ⟨c, hc, (hcovers id c hc).1 v hv⟩
  intro v id m path hm hpath
  cases m with
  | zero =>
    obtain ⟨b, hb, hv⟩ := hpath.used
    rw [hpath.start] at hb
    exact hfind hb (Block.mem_liveBefore.mpr (.inl hv))
  | succ m =>
    have hnext := hpath.edges 0 (Nat.succ_pos m)
    have hclear := hpath.clear 0 (Nat.succ_pos m)
    rw [hpath.start] at hnext hclear
    have hlive := hn v (path 1) m _ (Nat.lt_of_succ_lt_succ hm) hpath.tail
    have hout : v ∈ g.outOf blocks id := mem_outOf.mpr ⟨path 1, hnext, hlive⟩
    have hb := Array.getElem?_eq_getElem (hedge _ (mem_succs.mp hnext))
    exact hfind hb (Block.mem_liveBefore.mpr (.inr ⟨hout, fun hv => hclear ⟨_, hb, hv⟩⟩))

/-- Once all sets on entry are complete, one more sweep settles every block. -/
theorem settled_sweep (h : g.Partway blocks) (hedge : ∀ e ∈ g.edges, e.1 < g.blocks.size)
    (hn : g.Reached g.blocks.size blocks) (id : Nat) : g.Settled (g.sweep blocks).1 id := by
  obtain ⟨hpart, hgrows, hcovers⟩ := h.sweep
  have hback : ∀ v, v ∈ g.outOf (g.sweep blocks).1 id → v ∈ g.outOf blocks id := by
    intro v hv
    obtain ⟨next, hnext, hvn⟩ := mem_outOf.mp hv
    obtain ⟨c, hc, hvc⟩ := mem_liveInOf.mp hvn
    obtain ⟨_, _, hpath⟩ := exists_livePath ((hpart.justified next c hc).1 v hvc)
    obtain ⟨m, path, hshort, hm⟩ := hpath.exists_short hedge
    exact mem_outOf.mpr ⟨next, hnext, hn v next m path hm hshort⟩
  intro b hb
  obtain ⟨hin, hout⟩ := hpart.rising id b hb
  obtain ⟨hin', hout'⟩ := hcovers id b hb
  constructor
  · ext v
    refine ⟨hin v, fun hv => hin' v ?_⟩
    rw [Block.mem_liveBefore] at hv ⊢
    exact hv.imp_right fun hv => ⟨hback v hv.1, hv.2⟩
  · ext v
    exact ⟨hout v, fun hv => hout' v (hback v hv)⟩

end Partway

private theorem sweep_settled {g : FlowGraph} {blocks : Array Block}
    (h : ∀ id, g.Settled blocks id) :
    g.sweep blocks = (blocks, false) := by
  have hvisits : ∀ ids : List Nat, ids.foldl g.visit (blocks, false) = (blocks, false) := by
    intro ids
    induction ids with
    | nil => rfl
    | cons id ids ih =>
      rw [List.foldl_cons]
      rcases g.visit_cases (blocks, false) id with ⟨he, _⟩ | ⟨_, _, hs, _⟩
      · rw [he, ih]
      · exact absurd (h id) hs
  exact hvisits _

namespace SweepsTo
variable {g : FlowGraph} {blocks final : Array Block} {count : Nat}

private theorem partway (h : g.SweepsTo blocks final count) (hp : g.Partway blocks) :
    g.Partway final := by
  induction h with
  | done h => exact hp.of_sweep h
  | again h _ ih => exact ih (hp.of_sweep h)

/-- Every sweep but the last adds a member to a set. -/
theorem count_le_weight (h : g.SweepsTo blocks final count) (hp : g.Partway blocks) :
    weight blocks + count ≤ weight final + 1 := by
  induction h with
  | @done blocks final h =>
    have hsame := (g.sweep_unchanged blocks (congrArg Prod.snd h)).1
    rw [h] at hsame
    rw [← hsame]
  | @again blocks next final count h _ ih =>
    have hlt : weight blocks < weight (g.sweep blocks).1 :=
      hp.weight_visits_lt _ (congrArg Prod.snd h)
    rw [h] at hlt
    change weight blocks < weight next at hlt
    have hrest := ih (hp.of_sweep h)
    omega

private theorem sweeps_eq (h : g.SweepsTo blocks final count) {limit : Nat}
    (hlimit : count ≤ limit) :
    g.sweeps limit blocks = (final, count) := by
  induction h generalizing limit with
  | done h =>
    obtain ⟨limit, rfl⟩ := Nat.exists_eq_add_of_le' hlimit
    rw [sweeps, h]
  | @again _ _ _ count h _ ih =>
    obtain ⟨limit, rfl⟩ := Nat.exists_eq_add_of_le' hlimit
    rw [← Nat.add_assoc, sweeps, h]
    simp only [ih (Nat.le_add_left count limit)]

end SweepsTo

private theorem Partway.exists_sweepsTo {g : FlowGraph} {blocks : Array Block}
    (h : g.Partway blocks) (hedge : ∀ e ∈ g.edges, e.1 < g.blocks.size) {n left : Nat}
    (hn : g.Reached n blocks) (hleft : n + left = g.blocks.size) :
    ∃ final count, g.SweepsTo blocks final count ∧ count ≤ left + 2 := by
  -- `left` sweeps complete the sets on entry, the two others are the last change and the end
  induction left generalizing blocks n with
  | zero =>
    have hsettled := h.settled_sweep hedge (hleft ▸ hn)
    cases hsweep : g.sweep blocks with
    | mk next changed =>
      rw [hsweep] at hsettled
      cases changed with
      | false => exact ⟨next, 1, .done hsweep, by omega⟩
      | true => exact ⟨next, 2, .again hsweep (.done (sweep_settled hsettled)), by omega⟩
  | succ left ih =>
    have hpart := h.sweep.1
    have hreached := h.reached_sweep hedge hn
    cases hsweep : g.sweep blocks with
    | mk next changed =>
      rw [hsweep] at hpart hreached
      cases changed with
      | false => exact ⟨next, 1, .done hsweep, by omega⟩
      | true =>
        obtain ⟨final, count, hrest, hle⟩ := ih hpart hreached (by omega)
        exact ⟨final, count + 1, .again hsweep hrest, by omega⟩

/-- Whatever live sets a built graph held before, its sweeps end by themselves, with at most two
more of them than there are blocks, and the analysis returns what they end with. -/
theorem analyzeSets_ends {f : Function} {t : SymbolTable} {g : FlowGraph} (hg : g.Built f t)
    (live : Nat → VarSet × VarSet) :
    let before := g.withLiveSets live
    ∃ final count, before.SweepsTo (before.blocks.map Block.withoutLiveness) final count ∧
      count ≤ g.blocks.size + 2 ∧ before.analyzeSets = ({ before with blocks := final }, count) := by
  intro before
  obtain ⟨bounds, hdescribes⟩ := hg.describes
  have hbefore : before.Describes f bounds :=
    hdescribes.of_sameRecords (g.sameRecords_withLiveSets live)
  have hsize : before.blocks.size = g.blocks.size := Array.size_mapIdx
  have hreached : before.Reached 0 (before.blocks.map Block.withoutLiveness) :=
    fun _ _ m _ hm => absurd hm (Nat.not_lt_zero m)
  obtain ⟨final, count, hsweeps, hle⟩ := (Partway.start before).exists_sweepsTo
    (fun _ he => (hbefore.edge_lt he).1) hreached (Nat.zero_add _)
  refine ⟨final, count, hsweeps, hsize ▸ hle, ?_⟩
  have hlimit : count ≤ before.sweepLimit := by
    have hpart := hsweeps.partway (.start before)
    have hsame : final.size = before.blocks.size := by
      simpa using congrArg Array.size hpart.skeleton
    have hcount := hsweeps.count_le_weight (.start before)
    have hweight := hpart.weight_le (hbefore.linesOf_lt .use)
    rw [hsame] at hweight
    change count ≤ 2 * before.blocks.size * before.vars.size + 1
    omega
  rw [analyzeSets, hsweeps.sweeps_eq hlimit]

/-- The loop of the sample function, with sets that name a variable it does not have. -/
theorem spin_analyzeSets_ends : ∃ g, FlowGraph.build spin spinTable = .ok g ∧
    g.blocks.size = 3 ∧ ∃ final count,
      (g.withLiveSets fun _ => (.ofList [7], ∅)).analyzeSets.2 = count ∧ count ≤ 5 ∧
      (g.withLiveSets fun _ => (.ofList [7], ∅)).SweepsTo
        ((g.withLiveSets fun _ => (.ofList [7], ∅)).blocks.map Block.withoutLiveness)
        final count := by
  obtain ⟨g, hg, hsize⟩ : ∃ g, FlowGraph.build spin spinTable = .ok g ∧ g.blocks.size = 3 :=
    ⟨_, rfl, by decide⟩
  obtain ⟨final, count, hsweeps, hle, hresult⟩ :=
    analyzeSets_ends (.build hg) fun _ => (.ofList [7], ∅)
  rw [hsize] at hle
  exact ⟨g, hg, hsize, final, count, congrArg Prod.snd hresult, hle, hsweeps⟩

end FlowGraph

end RegisterColoring
