import RegisterColoring.Proofs.Flow.Order
import RegisterColoring.Proofs.Live.Merge
import RegisterColoring.Proofs.Live.Runs
/-!
# Live intervals

The ranges of a variable within a block are found by a walk over its uses and definitions. The
walk is the same as one over all lines of the block, and its ranges hold exactly the lines that
the variable is live on entry or on exit of. On every run, the merged ranges therefore hold the
lines from a definition to the uses it reaches.
-/
namespace RegisterColoring

namespace Walk

def StopsAfter (w : Walk) (line : Nat) : Prop := ∀ stop, w.stop = some stop → line < stop

/-- Pass a line that may define the variable and may use it. -/
def pass (uses defs : List Nat) (line : Nat) (w : Walk) : Walk :=
  let below := if line ∈ defs then w.define line else w
  if line ∈ uses then below.use line else below

private theorem isSome_stop_pass (uses defs : List Nat) (line : Nat) (w : Walk) :
    (pass uses defs line w).stop.isSome = true ↔
      line ∈ uses ∨ (w.stop.isSome = true ∧ line ∉ defs) := by
  rcases w with ⟨_ | stop, found⟩ <;> by_cases hd : line ∈ defs <;>
    by_cases hu : line ∈ uses <;> simp [pass, define, use, hd, hu]

private theorem StopsAfter.define {w : Walk} {line : Nat} (h : w.StopsAfter line)
    (defs : List Nat) : (if line ∈ defs then w.define line else w).StopsAfter line := by
  split
  · rcases w with ⟨_ | stop, found⟩
    · exact h
    · simp [Walk.define, StopsAfter]
  · exact h

private theorem StopsAfter.pass {w : Walk} {line : Nat} (h : w.StopsAfter line)
    (uses defs : List Nat) : (pass uses defs line w).StopsAfter line := by
  have huse : ∀ w : Walk, w.StopsAfter line → (w.use line).StopsAfter line := by
    rintro ⟨_ | stop, found⟩ hw
    · simp [use, StopsAfter]
    · exact hw
  simp only [Walk.pass]
  split
  · exact huse _ (h.define defs)
  · exact h.define defs

private theorem covered_finish (w : Walk) (line p : Nat) : Range.Covered (w.finish line) p ↔
    (∃ stop, w.stop = some stop ∧ line ≤ p ∧ p < stop) ∨ Range.Covered w.found p := by
  rcases w with ⟨_ | stop, found⟩ <;> simp [finish, Range.contains_iff]

private theorem covered_finish_succ {w : Walk} {line : Nat} (h : w.StopsAfter line) (p : Nat) :
    Range.Covered (w.finish line) p ↔
      Range.Covered (w.finish (line + 1)) p ∨ (p = line ∧ w.stop.isSome = true) := by
  rw [covered_finish, covered_finish]
  cases hw : w.stop with
  | none => simp
  | some stop =>
    have hlt := h stop hw
    have hhead : (line ≤ p ∧ p < stop) ↔ (line + 1 ≤ p ∧ p < stop) ∨ p = line := by omega
    simp only [Option.some.injEq, exists_eq_left', Option.isSome_some, and_true, hhead]
    tauto

private theorem finish_define (w : Walk) (line : Nat) :
    (w.define line).finish line = w.finish line := by
  rcases w with ⟨_ | stop, found⟩ <;> rfl

private theorem covered_use {w : Walk} {line : Nat} (h : w.StopsAfter line) (p : Nat) :
    Range.Covered ((w.use line).finish line) p ↔ Range.Covered (w.finish line) p ∨ p = line := by
  rw [covered_finish, covered_finish]
  rcases w with ⟨_ | stop, found⟩
  · have hline : (line ≤ p ∧ p < line + 1) ↔ p = line := by omega
    simp only [use, Option.some.injEq, exists_eq_left', hline, reduceCtorEq, false_and,
      exists_false, false_or, or_comm]
  · have hlt := h stop rfl
    have hline : p = line → line ≤ p ∧ p < stop := by omega
    simp only [use, Option.some.injEq, exists_eq_left']
    tauto

private theorem covered_pass {w : Walk} {line : Nat} (h : w.StopsAfter line) (uses defs : List Nat)
    (p : Nat) : Range.Covered ((pass uses defs line w).finish line) p ↔
      Range.Covered (w.finish (line + 1)) p ∨
        (p = line ∧ (w.stop.isSome = true ∨ line ∈ uses)) := by
  have hdefine : Range.Covered ((if line ∈ defs then w.define line else w).finish line) p ↔
      Range.Covered (w.finish line) p := by
    split
    · rw [finish_define]
    · rfl
  simp only [pass]
  split
  · next hu =>
    rw [covered_use (h.define defs), hdefine, covered_finish_succ h]
    simp only [hu, or_true, and_true]
    tauto
  · next hu =>
    rw [hdefine, covered_finish_succ h]
    simp [hu]

private theorem eq_cons_of_mem {top : Nat} {lines : List Nat} (hdesc : lines.Pairwise (· > ·))
    (hle : ∀ l ∈ lines, l ≤ top) (h : top ∈ lines) :
    lines = top :: lines.filter (· ≠ top) := by
  cases lines with
  | nil => simp at h
  | cons head rest =>
    have hrest := (List.pairwise_cons.mp hdesc).1
    have hhead : head = top := by
      rcases List.mem_cons.mp h with rfl | h
      · rfl
      · have hlt := hrest top h
        have hle := hle head (by simp)
        omega
    subst hhead
    have hkeep : rest.filter (· ≠ head) = rest := by
      apply List.filter_eq_self.mpr
      intro l hl
      have hlt := hrest l hl
      simp only [ne_eq, decide_not, Bool.not_eq_true', decide_eq_false_iff_not]
      omega
    rw [List.filter_cons_of_neg (by simp), hkeep]

private theorem eq_filter_of_not_mem {top : Nat} {lines : List Nat} (h : top ∉ lines) :
    lines = lines.filter (· ≠ top) := by
  symm
  apply List.filter_eq_self.mpr
  intro l hl
  simpa using fun he : l = top => h (he ▸ hl)

private theorem back_top (w : Walk) (top : Nat) {uses defs : List Nat}
    (huses : uses.Pairwise (· > ·)) (hdefs : defs.Pairwise (· > ·)) (hu : ∀ l ∈ uses, l ≤ top)
    (hd : ∀ l ∈ defs, l ≤ top) : w.back uses defs =
      (pass uses defs top w).back (uses.filter (· ≠ top)) (defs.filter (· ≠ top)) := by
  by_cases hut : top ∈ uses <;> by_cases hdt : top ∈ defs
  · simp only [pass, hut, hdt, if_true]
    rw [eq_cons_of_mem huses hu hut, eq_cons_of_mem hdefs hd hdt, back]
    simp
  · simp only [pass, hut, hdt, if_true, if_false]
    rw [← eq_filter_of_not_mem hdt]
    nth_rewrite 1 [eq_cons_of_mem huses hu hut]
    cases defs with
    | nil => rw [back]
    | cons d ds =>
      have hle := hd d (by simp)
      have hne : d ≠ top := fun he => hdt (by simp [he])
      rw [back, if_neg (by omega), if_pos (by omega)]
  · simp only [pass, hut, hdt, if_true, if_false]
    rw [← eq_filter_of_not_mem hut]
    nth_rewrite 1 [eq_cons_of_mem hdefs hd hdt]
    cases uses with
    | nil => rw [back]
    | cons u us =>
      have hle := hu u (by simp)
      have hne : u ≠ top := fun he => hut (by simp [he])
      rw [back, if_pos (by omega)]
  · simp only [pass, hut, hdt, if_false]
    rw [← eq_filter_of_not_mem hut, ← eq_filter_of_not_mem hdt]

private theorem back_eq_foldr (first count : Nat) (w : Walk) (uses defs : List Nat)
    (huses : uses.Pairwise (· > ·)) (hdefs : defs.Pairwise (· > ·))
    (hu : ∀ l ∈ uses, first ≤ l ∧ l < first + count)
    (hd : ∀ l ∈ defs, first ≤ l ∧ l < first + count) :
    w.back uses defs = (List.range' first count).foldr (pass uses defs) w := by
  induction count generalizing w uses defs with
  | zero =>
    have hnil : ∀ lines : List Nat, (∀ l ∈ lines, first ≤ l ∧ l < first + 0) → lines = [] := by
      intro lines h
      apply List.eq_nil_iff_forall_not_mem.mpr
      intro l hl
      have := h l hl
      omega
    rw [hnil uses hu, hnil defs hd, back]
    rfl
  | succ count ih =>
    have hbelow : ∀ lines : List Nat, (∀ l ∈ lines, first ≤ l ∧ l < first + (count + 1)) →
        ∀ l ∈ lines.filter (· ≠ first + count), first ≤ l ∧ l < first + count := by
      intro lines h l hl
      rcases List.mem_filter.mp hl with ⟨hl, hne⟩
      have hbound := h l hl
      have hne : l ≠ first + count := by simpa using hne
      omega
    rw [back_top w (first + count) huses hdefs (fun l hl => by have := hu l hl; omega)
      (fun l hl => by have := hd l hl; omega),
      ih _ _ _ (huses.filter _) (hdefs.filter _) (hbelow uses hu) (hbelow defs hd),
      List.range'_1_concat, List.foldr_append, List.foldr_cons, List.foldr_nil]
    apply List.foldr_ext
    intro l hl w
    have hne : l ≠ first + count := by
      have := (List.mem_range'_1.mp hl).2
      omega
    simp [pass, hne]

/-- What every line keeps is kept by the walk over lines that follow each other. -/
theorem foldr_pass {P : Nat → Walk → Prop} {uses defs : List Nat} {last : Nat} {w : Walk}
    (hstart : P (last + 1) w) (count line : Nat) (hlast : line + count = last + 1)
    (hpass : ∀ l w, line ≤ l → l ≤ last → P (l + 1) w → P l (pass uses defs l w)) :
    P line ((List.range' line count).foldr (pass uses defs) w) := by
  induction count generalizing line with
  | zero =>
    rw [← hlast] at hstart
    exact hstart
  | succ count ih =>
    rw [List.range'_succ, List.foldr_cons]
    apply hpass line _ (Nat.le_refl line) (by omega)
    apply ih (line + 1) (by omega)
    intro l w hl hl'
    exact hpass l w (by omega) hl'

end Walk

namespace Block

/-- The walk for a variable has come to a line, with ranges for exactly the lines from there on
at which the variable is live. -/
structure Walked (b : Block) (v line : Nat) (w : Walk) : Prop where
  live : w.stop.isSome = true ↔ b.LiveEntering v line
  stop_ge : ∀ stop, w.stop = some stop → line ≤ stop
  covered : ∀ p, Range.Covered (w.finish line) p ↔
    line ≤ p ∧ p ≤ b.last ∧ (b.LiveEntering v p ∨ b.LiveLeaving v p)

private theorem walked_start (b : Block) (v : Nat) :
    b.Walked v (b.last + 1) ⟨if v ∈ b.liveOut then some (b.last + 1) else none, []⟩ where
  live := by
    rw [← LiveLeaving, liveLeaving_last]
    split <;> simp_all
  stop_ge := by
    split <;> simp_all
  covered p := by
    rw [Walk.covered_finish]
    constructor
    · intro h
      split at h
      · simp only [Option.some.injEq, exists_eq_left', Range.not_covered_nil, or_false] at h
        omega
      · simp at h
    · intro h
      omega

private theorem Walked.pass {b : Block} {v line : Nat} {w : Walk} (h : b.Walked v (line + 1) w)
    (hline : line ≤ b.last) {uses defs : List Nat} (huses : line ∈ uses ↔ v ∈ b.idsAt .use line)
    (hdefs : line ∈ defs ↔ v ∈ b.idsAt .define line) :
    b.Walked v line (w.pass uses defs line) where
  live := by
    rw [Walk.isSome_stop_pass, liveEntering_iff hline, h.live, huses, hdefs, LiveLeaving]
  stop_ge stop hstop := by
    have hstops : w.StopsAfter line := h.stop_ge
    exact Nat.le_of_lt (hstops.pass uses defs stop hstop)
  covered p := by
    have hstops : w.StopsAfter line := h.stop_ge
    have hhere : b.LiveEntering v line ∨ b.LiveLeaving v line ↔
        b.LiveLeaving v line ∨ v ∈ b.idsAt .use line := by
      rw [liveEntering_iff hline]
      tauto
    rw [Walk.covered_pass hstops, h.covered, h.live, huses]
    constructor
    · rintro (⟨hp, hlast, hlive⟩ | ⟨rfl, hlive⟩)
      · exact ⟨by omega, hlast, hlive⟩
      · exact ⟨Nat.le_refl _, hline, hhere.mpr hlive⟩
    · rintro ⟨hp, hlast, hlive⟩
      by_cases he : p = line
      · subst he
        exact .inr ⟨rfl, hhere.mp hlive⟩
      · exact .inl ⟨by omega, hlast, hlive⟩

theorem exists_walk {b : Block} {v : Nat} (hfirst : b.first ≤ b.last) (hagrees : b.Agrees)
    (hascends : b.Ascends) (hlines : ∀ access line, v ∈ b.idsAt access line → line ∈ b.lines)
    (P : Nat → Walk → Prop)
    (hstart : P (b.last + 1) ⟨if v ∈ b.liveOut then some (b.last + 1) else none, []⟩)
    (hpass : ∀ (line : Nat) (uses defs : List Nat) (w : Walk), line ∈ b.lines →
      (line ∈ uses ↔ v ∈ b.idsAt .use line) → (line ∈ defs ↔ v ∈ b.idsAt .define line) →
      P (line + 1) w → P line (w.pass uses defs line)) :
    ∃ w, P b.first w ∧ b.rangesOf v = w.finish b.first := by
  have hmem : ∀ access l, l ∈ ((b.mentions access).linesOf.getD v []).reverse ↔
      v ∈ b.idsAt access l := by
    intro access l
    rw [List.mem_reverse, hagrees.mem_getD_linesOf]
  have hbound : ∀ access, ∀ l ∈ ((b.mentions access).linesOf.getD v []).reverse,
      b.first ≤ l ∧ l < b.first + (b.last + 1 - b.first) := by
    intro access l hl
    have hl := mem_lines.mp (hlines access l ((hmem access l).mp hl))
    omega
  have hdesc : ∀ access, ((b.mentions access).linesOf.getD v []).reverse.Pairwise (· > ·) := by
    intro access
    exact List.pairwise_reverse.mpr (hascends access v)
  have hwalk := Walk.foldr_pass hstart (b.last + 1 - b.first) b.first (by omega)
    (fun l w hl hl' => hpass l _ _ w (mem_lines.mpr ⟨hl, hl'⟩) (hmem .use l) (hmem .define l))
  rw [← Walk.back_eq_foldr _ _ _ _ _ (hdesc .use) (hdesc .define) (hbound .use)
    (hbound .define)] at hwalk
  exact ⟨_, hwalk, rfl⟩

/-- The ranges of a variable within a block hold the lines at which it is live. -/
theorem covered_rangesOf {b : Block} {v : Nat} (hfirst : b.first ≤ b.last) (hagrees : b.Agrees)
    (hascends : b.Ascends) (hlines : ∀ access line, v ∈ b.idsAt access line → line ∈ b.lines)
    (p : Nat) : Range.Covered (b.rangesOf v) p ↔
      p ∈ b.lines ∧ (b.LiveEntering v p ∨ b.LiveLeaving v p) := by
  obtain ⟨w, hwalked, hranges⟩ := exists_walk hfirst hagrees hascends hlines (b.Walked v)
    (b.walked_start v)
    (fun line _ _ _ hline huses hdefs h => h.pass (mem_lines.mp hline).2 huses hdefs)
  rw [hranges, mem_lines, and_assoc]
  exact hwalked.covered p

private theorem lookup_filterMap (b : Block) (v : Nat) (vs : List Nat) :
    ((vs.filterMap fun w => if (b.rangesOf w).isEmpty then none else some (w, b.rangesOf w)).lookup
      v).getD [] = if v ∈ vs then b.rangesOf v else [] := by
  induction vs with
  | nil => simp
  | cons w vs ih =>
    by_cases hw : (b.rangesOf w).isEmpty = true
    · rw [List.filterMap_cons_none (by simp [hw]), ih]
      by_cases he : v = w
      · subst he
        simp_all
      · simp [he]
    · rw [List.filterMap_cons_some (b := (w, b.rangesOf w)) (by simp [hw]), List.lookup_cons]
      by_cases he : v = w
      · simp [he]
      · have hne : (v == w) = false := by simpa using he
        simpa [he, hne] using ih

theorem lookup_localRanges (b : Block) (v : Nat) :
    (b.localRanges.lookup v).getD [] = b.rangesOf v := by
  rw [localRanges, lookup_filterMap]
  split
  · rfl
  · next hv =>
    change v ∉ b.referenced at hv
    simp only [mem_referenced, not_or] at hv
    rcases hv with ⟨huses, hdefs, _, hout⟩
    simp [rangesOf, hout, Std.TreeMap.getD_eq_fallback huses, Std.TreeMap.getD_eq_fallback hdefs,
      Walk.back, Walk.finish]

end Block

private theorem LiveInfo.isLiveAt_iff {info : LiveInfo} {line : Nat} :
    info.isLiveAt line = true ↔ Range.Covered info.merged line := by
  simp [isLiveAt, Range.Covered]

namespace FlowGraph

private theorem covered_rangesOf (g : FlowGraph) (v line : Nat) :
    Range.Covered (rangesOf g.analyzeIntervals.blocks v) line ↔
      ∃ b ∈ g.blocks, Range.Covered (b.rangesOf v) line := by
  have hblocks : rangesOf g.analyzeIntervals.blocks v =
      g.blocks.toList.flatMap fun b => b.rangesOf v := by
    simp only [rangesOf, analyzeIntervals, Array.toList_map, List.flatMap_map,
      Block.lookup_localRanges]
  rw [hblocks]
  simp only [Range.Covered, List.mem_flatMap, Array.mem_toList_iff]
  constructor
  · rintro ⟨r, ⟨b, hb, hr⟩, hline⟩
    exact ⟨b, hb, r, hr, hline⟩
  · rintro ⟨b, hb, r, hr, hline⟩
    exact ⟨r, ⟨b, hb, hr⟩, hline⟩

theorem Describes.exists_info {g : FlowGraph} {f : Function} {bounds : List Bounds}
    (h : g.Describes f bounds) (hascends : ∀ b ∈ g.blocks, b.Ascends) {v : Nat}
    (hv : v < g.vars.size) : ∃ info, g.analyzeIntervals.info? v = some info ∧ ∀ line,
      info.isLiveAt line = true ↔
        ∃ b ∈ g.blocks, line ∈ b.lines ∧ (b.LiveEntering v line ∨ b.LiveLeaving v line) := by
  refine ⟨(LiveInfo.empty.add (rangesOf g.analyzeIntervals.blocks v)).merge, ?_, ?_⟩
  · simp [info?, analyzeIntervals, hv]
  · intro line
    have hmerged : (LiveInfo.empty.add (rangesOf g.analyzeIntervals.blocks v)).merge.merged =
        Range.merge (rangesOf g.analyzeIntervals.blocks v) := rfl
    rw [LiveInfo.isLiveAt_iff, hmerged, Range.covered_merge, covered_rangesOf]
    apply exists_congr
    intro b
    apply and_congr_right
    intro hb
    apply Block.covered_rangesOf (h.first_le_last b hb) (h.agrees b hb) (hascends b hb)
    intro access l hl
    exact ((h.mem_idsAt b hb access l v).mp hl).1

end FlowGraph

private theorem Control.Carries.drop {code : List Instruction} {v : Variable} {n k : Nat}
    {line : Nat → Nat} (h : Carries code v n line) (hk : k ≤ n) :
    Carries code v (n - k) fun i => line (k + i) where
  steps i hi := h.steps (k + i) (by omega)
  used := by
    rw [Nat.add_sub_cancel' hk]
    exact h.used
  kept i hi := h.kept (k + i) (by omega)

/-- The live intervals hold every line of a run that carries a variable to a use, and every
definition that control passes from to the first line of the run. -/
theorem FlowGraph.isLiveAt_of_carries {f : Function} {t : SymbolTable} {g : FlowGraph}
    (h : FlowGraph.build f t = .ok g) {v : Variable} {n : Nat} {line : Nat → Nat}
    (hrun : Control.Carries f.code v n line) :
    ∃ id info, g.analyze.1.vars.id? v = some id ∧ g.analyze.1.info? id = some info ∧
      (∀ k ≤ n, info.isLiveAt (line k) = true) ∧
      ∀ d, Control.Defines f.code d v → Control.Step f.code d (line 0) →
        info.isLiveAt d = true := by
  have hdescribes : g.Describes f (Bounds.partition f.code) := ofBounds_describes h
  have hstraight := Bounds.straight_partition f.code
  have hsets := hdescribes.analyzeSets
  have hascends := g.sameRecords_analyzeSets.ascends (ofBounds_ascends h)
  rcases hdescribes.exists_id (Control.accesses_use.mpr hrun.used) with ⟨id, hid⟩
  rcases hsets.exists_info hascends (Numbering.var?_lt_size hid) with ⟨info, hinfo, hlive⟩
  have hentering : ∀ k ≤ n, ∀ (l : Nat) (b : Block), g.analyzeSets.1.blocks[l]? = some b →
      line k ∈ b.lines → b.LiveEntering id (line k) := by
    intro k hk l b hb hline
    exact hsets.liveEntering_of_carries hstraight hid (hrun.drop hk) hb hline
  refine ⟨id, info, ?_, hinfo, ?_, ?_⟩
  · exact Numbering.id?_of_var? hdescribes.nodup hid
  · intro k hk
    have hlt : line k < f.code.length := by
      rcases Nat.eq_or_lt_of_le hk with rfl | hk
      · exact (Control.accesses_use.mpr hrun.used).lt_length
      · exact (hrun.steps k hk).lt_length
    rcases hsets.exists_block_of_lt hlt with ⟨l, b, hb, hline⟩
    exact (hlive _).mpr ⟨b, Array.mem_of_getElem? hb, hline, .inl (hentering k hk l b hb hline)⟩
  · intro d hdef hstep
    rcases hsets.exists_block_of_lt hstep.lt_length with ⟨l, b, hb, hline⟩
    have hleaving := hsets.liveLeaving_of_step hstraight hstep
      (hentering 0 (Nat.zero_le n)) hb hline
    exact (hlive d).mpr ⟨b, Array.mem_of_getElem? hb, hline, .inr hleaving⟩

/-- Two turns of the loop, and the line before them that defines `a`. -/
theorem FlowGraph.spin_isLiveAt : ∃ g id info, FlowGraph.build spin spinTable = .ok g ∧
    Control.Carries spin.code ⟨0⟩ 4 Control.spinTurns ∧
    Control.Defines spin.code 0 ⟨0⟩ ∧ Control.Step spin.code 0 (Control.spinTurns 0) ∧
    g.analyze.1.vars.id? ⟨0⟩ = some id ∧ g.analyze.1.info? id = some info ∧
    (∀ k ≤ 4, info.isLiveAt (Control.spinTurns k) = true) ∧ info.isLiveAt 0 = true := by
  obtain ⟨g, hg⟩ : ∃ g, FlowGraph.build spin spinTable = .ok g := ⟨_, rfl⟩
  have hdef : Control.Defines spin.code 0 ⟨0⟩ := by decide
  have hstep : Control.Step spin.code 0 (Control.spinTurns 0) :=
    .next rfl (by decide) (by decide) (by decide) (by decide)
  rcases isLiveAt_of_carries hg Control.spin_carries with ⟨id, info, hid, hinfo, hlines, hbefore⟩
  exact ⟨g, id, info, hg, Control.spin_carries, hdef, hstep, hid, hinfo, hlines,
    hbefore 0 hdef hstep⟩

end RegisterColoring
