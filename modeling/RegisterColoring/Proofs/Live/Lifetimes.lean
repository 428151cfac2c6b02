import RegisterColoring.Proofs.Live.Intervals
import RegisterColoring.Proofs.Live.Timelines
/-!
# Lifetimes

Each range of a variable within a block belongs to one value of the variable. It starts on the line
that defines the value, or on the first line if the value comes from before the block, and it ends
after the last line that needs the value.
-/
namespace RegisterColoring

/-- The second range comes after the first one and shares at most a line with it, the last of the
first one and the first of its own. -/
def Range.Precedes (r s : Range) : Prop :=
  r.start ≤ s.start ∧ r.stop ≤ s.stop ∧ r.stop ≤ s.start + 1

namespace Timeline

/-- The range is the lifetime of a value: of one that its first line defines, or of the one that the
variable has on entry of the block. -/
def Lifetime (t : Timeline) (r : Range) : Prop :=
  (t.defines r.start ∧ t.NeededUntil (r.start + 1) r.stop) ∨
    (r.start = t.first ∧ t.NeededUntil t.first r.stop)

/-- What the list of the lifetimes of a variable looks like. -/
structure Reports (t : Timeline) (ranges : List Range) : Prop where
  within : ∀ r ∈ ranges, r.start < r.stop ∧ t.first ≤ r.start ∧ r.stop ≤ t.last + 1
  ordered : ranges.Pairwise Range.Precedes
  /-- Only the first range may hold a value from before the block. -/
  starts : ∀ k r, ranges[k]? = some r →
    t.defines r.start ∨ (k = 0 ∧ r.start = t.first ∧ t.Needed t.first r.stop)
  stops : ∀ r ∈ ranges, (∃ u, t.uses u ∧ r.stop = u + 1) ∨ (t.out ∧ r.stop = t.last + 1)
  /-- The last line of a range may define the next value, no line before it does. -/
  kept : ∀ r ∈ ranges, ∀ line, r.start < line → line + 1 < r.stop → ¬ t.defines line
  complete : ∀ d stop, t.defines d → t.Needed (d + 1) stop → ∃ r ∈ ranges, r.start = d

variable {t : Timeline} {r s : Range}

private theorem Needed.precedes {line : Nat} (h : t.Needed line r.stop) (hline : line ≤ s.start)
    (hstart : r.start ≤ s.start) (hd : t.defines s.start) (hs : t.Needed (s.start + 1) s.stop) :
    r.Precedes s := by
  have hstop := h.stop_le_of_defines hline hd
  have hlt := hs.lt_stop (Nat.le_succ _) (t.defines_within hd).2
  exact ⟨hstart, by omega, hstop⟩

namespace Lifetime

private theorem exists_needed (h : t.Lifetime r) : ∃ line ≤ r.start + 1, t.Needed line r.stop := by
  rcases h with ⟨_, h⟩ | ⟨hfirst, h⟩
  · exact ⟨r.start + 1, Nat.le_refl _, h.needed⟩
  · exact ⟨t.first, by omega, h.needed⟩

private theorem within (h : t.Lifetime r) (hle : t.first ≤ t.last) :
    r.start < r.stop ∧ t.first ≤ r.start ∧ r.stop ≤ t.last + 1 := by
  rcases h with ⟨hd, h⟩ | ⟨hfirst, h⟩
  · have hd := t.defines_within hd
    exact ⟨h.needed.lt_stop (Nat.le_succ _) hd.2, hd.1, h.needed.stop_le⟩
  · rw [hfirst]
    exact ⟨h.needed.lt_stop (Nat.le_refl _) hle, Nat.le_refl _, h.needed.stop_le⟩

private theorem stops (h : t.Lifetime r) :
    (∃ u, t.uses u ∧ r.stop = u + 1) ∨ (t.out ∧ r.stop = t.last + 1) := by
  obtain ⟨line, _, hneeded⟩ := h.exists_needed
  rcases hneeded with ⟨u, _, hu, _, hstop⟩ | ⟨hout, _, hstop⟩
  · exact .inl ⟨u, hu, hstop⟩
  · exact .inr ⟨hout, hstop⟩

private theorem kept (h : t.Lifetime r) (line : Nat) (hstart : r.start < line)
    (hstop : line + 1 < r.stop) :
    ¬ t.defines line := by
  intro hd
  obtain ⟨entry, hle, hneeded⟩ := h.exists_needed
  have hend := hneeded.stop_le_of_defines (by omega) hd
  omega

end Lifetime

end Timeline

namespace Walk
variable {t : Timeline} {line : Nat} {w : Walk}

/-- A walk over a timeline has come to a line. It knows where the value ends that the variable has
there, and has found the lifetimes of the values defined from there on. -/
structure Follows (t : Timeline) (line : Nat) (w : Walk) : Prop where
  needed : ∀ stop, w.stop = some stop → t.Needed line stop
  latest : ∀ s, t.Needed line s → ∃ stop, w.stop = some stop ∧ s ≤ stop
  found : ∀ r, r ∈ w.found ↔
    line ≤ r.start ∧ t.defines r.start ∧ t.NeededUntil (r.start + 1) r.stop
  ascending : w.found.Pairwise fun r s => r.start < s.start

private theorem Follows.stop_eq_some_iff (h : w.Follows t line) {stop : Nat} :
    w.stop = some stop ↔ t.NeededUntil line stop := by
  constructor
  · intro hstop
    refine ⟨h.needed stop hstop, ?_⟩
    intro s hs
    have hlatest := h.latest s hs
    simpa [hstop] using hlatest
  · intro huntil
    obtain ⟨s, hs, hle⟩ := h.latest stop huntil.needed
    have hle' := huntil.latest s (h.needed s hs)
    simp [hs, Nat.le_antisymm hle' hle]

private theorem follows_start (t : Timeline) {stop : Option Nat}
    (hstop : ∀ s, stop = some s ↔ t.out ∧ s = t.last + 1) :
    Follows t (t.last + 1) ⟨stop, []⟩ where
  needed s hs := Timeline.needed_end_iff.mpr ((hstop s).mp hs)
  latest s hs := by
    have hout := Timeline.needed_end_iff.mp hs
    exact ⟨s, (hstop s).mpr hout, Nat.le_refl s⟩
  found r := by
    simp only [List.not_mem_nil, false_iff]
    intro hr
    have hlast := t.defines_within hr.2.1
    omega
  ascending := List.Pairwise.nil

private theorem stop_pass_eq_some_iff {uses defs : List Nat} {stop : Nat} :
    (pass uses defs line w).stop = some stop ↔ (line ∉ defs ∧ w.stop = some stop) ∨
      (line ∈ uses ∧ stop = line + 1 ∧ (line ∈ defs ∨ w.stop = none)) := by
  rcases w with ⟨_ | e, found⟩ <;> by_cases hd : line ∈ defs <;>
    by_cases hu : line ∈ uses <;> simp [pass, define, use, hd, hu, eq_comm]

private theorem found_pass (uses defs : List Nat) (line : Nat) (w : Walk) :
    (pass uses defs line w).found =
      (if line ∈ defs then (w.stop.map (Range.mk line)).toList else []) ++ w.found := by
  rcases w with ⟨_ | e, found⟩ <;> by_cases hd : line ∈ defs <;>
    by_cases hu : line ∈ uses <;> simp [pass, define, use, hd, hu]

private theorem mem_found_pass_iff {uses defs : List Nat} {r : Range} :
    r ∈ (pass uses defs line w).found ↔
      (r.start = line ∧ line ∈ defs ∧ w.stop = some r.stop) ∨ r ∈ w.found := by
  rcases r with ⟨start, stop⟩
  rw [found_pass]
  by_cases hd : line ∈ defs
  · cases hstop : w.stop <;> simp [hd, eq_comm]
  · simp [hd]

private theorem pairwise_found_pass {uses defs : List Nat} (hw : ∀ r ∈ w.found, line < r.start)
    (h : w.found.Pairwise fun r s => r.start < s.start) :
    (pass uses defs line w).found.Pairwise fun r s => r.start < s.start := by
  rw [found_pass]
  by_cases hd : line ∈ defs
  · cases hstop : w.stop with
    | none => simpa [hd] using h
    | some stop => simpa [hd, h] using hw
  · simpa [hd] using h

/-- Passing a line keeps the walk on the timeline. -/
theorem Follows.pass (h : w.Follows t (line + 1)) (hline : line ≤ t.last) {uses defs : List Nat}
    (huses : line ∈ uses ↔ t.uses line) (hdefs : line ∈ defs ↔ t.defines line) :
    (w.pass uses defs line).Follows t line where
  needed stop hstop := by
    rw [Timeline.needed_iff hline, ← huses, ← hdefs]
    rcases stop_pass_eq_some_iff.mp hstop with ⟨hd, hw⟩ | ⟨hu, heq, _⟩
    · exact .inr ⟨hd, h.needed stop hw⟩
    · exact .inl ⟨hu, heq⟩
  latest s hs := by
    simp only [stop_pass_eq_some_iff]
    rw [Timeline.needed_iff hline, ← huses, ← hdefs] at hs
    rcases hs with ⟨hu, rfl⟩ | ⟨hd, hs⟩
    · by_cases hfresh : line ∈ defs ∨ w.stop = none
      · exact ⟨line + 1, .inr ⟨hu, rfl, hfresh⟩, Nat.le_refl _⟩
      · -- a value that is live below the line ends below it too
        simp only [not_or, ← ne_eq, Option.ne_none_iff_exists'] at hfresh
        obtain ⟨hd, stop, hstop⟩ := hfresh
        exact ⟨stop, .inl ⟨hd, hstop⟩, (h.needed stop hstop).lt_stop (Nat.le_succ _) hline⟩
    · obtain ⟨stop, hstop, hle⟩ := h.latest s hs
      exact ⟨stop, .inl ⟨hd, hstop⟩, hle⟩
  found r := by
    rw [mem_found_pass_iff, h.found, h.stop_eq_some_iff, hdefs]
    constructor
    · intro hr
      rcases hr with ⟨heq, hr⟩ | ⟨hlt, hr⟩
      · subst heq
        exact ⟨Nat.le_refl _, hr⟩
      · exact ⟨Nat.le_of_lt hlt, hr⟩
    · intro hr
      rcases Nat.eq_or_lt_of_le hr.1 with heq | hlt
      · subst heq
        exact .inl ⟨rfl, hr.2⟩
      · exact .inr ⟨hlt, hr.2⟩
  ascending := by
    apply pairwise_found_pass _ h.ascending
    intro r hr
    exact ((h.found r).mp hr).1

section Finished
variable (h : w.Follows t t.first)
include h

private theorem Follows.mem_finish_iff {r : Range} : r ∈ w.finish t.first ↔ t.Lifetime r := by
  have hfound : r ∈ w.found ↔ t.defines r.start ∧ t.NeededUntil (r.start + 1) r.stop := by
    rw [h.found]
    constructor
    · intro hr
      exact hr.2
    · intro hr
      exact ⟨(t.defines_within hr.1).1, hr⟩
  have hhead : r ∈ w.finish t.first ↔
      (r.start = t.first ∧ w.stop = some r.stop) ∨ r ∈ w.found := by
    rcases r with ⟨start, stop⟩
    rcases w with ⟨_ | e, found⟩ <;> simp [finish, eq_comm]
  rw [hhead, h.stop_eq_some_iff, hfound, or_comm]
  rfl

private theorem Follows.pairwise_finish : (w.finish t.first).Pairwise Range.Precedes := by
  have hfound : w.found.Pairwise Range.Precedes := by
    apply h.ascending.imp_of_mem
    intro r s hr hs hlt
    have hr := (h.found r).mp hr
    have hs := (h.found s).mp hs
    exact hr.2.2.needed.precedes hlt (Nat.le_of_lt hlt) hs.2.1 hs.2.2.needed
  cases hstop : w.stop with
  | none => simpa [finish, hstop] using hfound
  | some stop =>
    simp only [finish, hstop, List.pairwise_cons]
    refine ⟨?_, hfound⟩
    intro s hs
    have hs := (h.found s).mp hs
    exact (h.needed stop hstop).precedes hs.1 hs.1 hs.2.1 hs.2.2.needed

private theorem Follows.defines_or_head {k : Nat} {r : Range}
    (hr : (w.finish t.first)[k]? = some r) :
    t.defines r.start ∨ (k = 0 ∧ r.start = t.first ∧ t.Needed t.first r.stop) := by
  have hfound : ∀ r ∈ w.found, t.defines r.start := fun r hr => ((h.found r).mp hr).2.1
  cases hstop : w.stop with
  | none =>
    simp only [finish, hstop] at hr
    exact .inl (hfound r (List.mem_of_getElem? hr))
  | some stop =>
    simp only [finish, hstop] at hr
    cases k with
    | zero =>
      simp only [List.getElem?_cons_zero, Option.some.injEq] at hr
      subst hr
      exact .inr ⟨rfl, rfl, h.needed stop hstop⟩
    | succ k =>
      simp only [List.getElem?_cons_succ] at hr
      exact .inl (hfound r (List.mem_of_getElem? hr))

private theorem Follows.reports (hle : t.first ≤ t.last) : t.Reports (w.finish t.first) where
  within r hr := (h.mem_finish_iff.mp hr).within hle
  ordered := h.pairwise_finish
  starts k r := h.defines_or_head
  stops r hr := (h.mem_finish_iff.mp hr).stops
  kept r hr := (h.mem_finish_iff.mp hr).kept
  complete d stop hd hneeded := by
    obtain ⟨s, hs⟩ := hneeded.exists_until
    exact ⟨⟨d, s⟩, h.mem_finish_iff.mpr (.inl ⟨hd, hs⟩), rfl⟩

end Finished

end Walk

def Block.reported (b : Block) (id : Nat) : List Range := (b.localRanges.lookup id).getD []

namespace FlowGraph

private theorem Describes.exists_follows {g : FlowGraph} {f : Function} {bounds : List Bounds}
    (h : g.Describes f bounds) {b : Block} (hb : b ∈ g.blocks) (hascends : b.Ascends) (id : Nat) :
    ∃ w : Walk, w.Follows (b.timeline f.code g.vars id) b.first ∧
      b.rangesOf id = w.finish b.first := by
  apply Block.exists_walk (h.first_le_last b hb) (h.agrees b hb) hascends
  · intro access line hid
    exact ((h.mem_idsAt b hb access line id).mp hid).1
  · apply Walk.follows_start (b.timeline f.code g.vars id)
    intro s
    change _ ↔ id ∈ b.liveOut ∧ s = b.last + 1
    split
    · next hout => simp [hout, eq_comm]
    · next hout => simp [hout]
  · intro line uses defs w hline huses hdefs hw
    apply hw.pass (Block.mem_lines.mp hline).2
    · exact huses.trans (h.mem_idsAt b hb .use line id)
    · exact hdefs.trans (h.mem_idsAt b hb .define line id)

/-- Whatever sets the blocks of a built graph hold, the ranges that a block reports for a variable
are the lifetimes of its values within the block, one after the other. -/
theorem Built.ranges_are_lifetimes {f : Function} {t : SymbolTable} {g : FlowGraph}
    (hg : g.Built f t) (live : Nat → VarSet × VarSet) {k : Nat} {b : Block}
    (hb : (g.withLiveSets live).blocks[k]? = some b) (id : Nat) :
    (∀ r, r ∈ b.reported id ↔ (b.timeline f.code g.vars id).Lifetime r) ∧
      (b.timeline f.code g.vars id).Reports (b.reported id) := by
  obtain ⟨bounds, hdescribes⟩ := hg.describes
  have hsame := g.sameRecords_withLiveSets live
  have hflow := hdescribes.of_sameRecords hsame
  have hmem := Array.mem_of_getElem? hb
  obtain ⟨w, hw, hranges⟩ := hflow.exists_follows hmem (hsame.ascends hg.ascends b hmem) id
  rw [Block.reported, Block.lookup_localRanges, hranges]
  exact ⟨fun r => hw.mem_finish_iff, hw.reports (hflow.first_le_last b hmem)⟩

/-- Line 4 uses the value of `c` that line 2 defines and defines the one that is live on exit. -/
theorem spin_ranges_are_lifetimes : ∃ g b,
    FlowGraph.ofBounds spin spinTable [⟨0, 1⟩, ⟨2, 5⟩] = .ok g ∧
    (g.withLiveSets fun _ => (∅, .ofList [2])).blocks[1]? = some b ∧
    b.reported 2 = [⟨2, 5⟩, ⟨4, 6⟩] ∧
    (∀ r, r ∈ [⟨2, 5⟩, ⟨4, 6⟩] ↔ (b.timeline spin.code g.vars 2).Lifetime r) ∧
    (b.timeline spin.code g.vars 2).Reports [⟨2, 5⟩, ⟨4, 6⟩] := by
  obtain ⟨g, hg, hblock⟩ : ∃ g, FlowGraph.ofBounds spin spinTable [⟨0, 1⟩, ⟨2, 5⟩] = .ok g ∧
      ((g.withLiveSets fun _ => (∅, .ofList [2])).blocks[1]?.map fun b : Block => b.reported 2) =
        some [⟨2, 5⟩, ⟨4, 6⟩] := ⟨_, rfl, by decide +kernel⟩
  obtain ⟨b, hb, hranges⟩ := Option.map_eq_some_iff.mp hblock
  have hlifetimes := Built.ranges_are_lifetimes (.ofBounds _ hg) _ hb 2
  rw [hranges] at hlifetimes
  exact ⟨g, b, hg, hb, hranges, hlifetimes⟩

end FlowGraph

end RegisterColoring
