import RegisterColoring.Proofs.Live.Merge
/-!
# Canonical ranges

Merged ranges are sorted and no two neighbours overlap, also where some of them are empty or stop
before they start. Where every range holds a line, the merged ones are determined by the lines that
are held.
-/
namespace RegisterColoring.Range

private theorem eq_of_le_of_le {r s : Range} (hrs : r.le s = true) (hsr : s.le r = true) :
    r = s := by
  obtain ⟨start, stop⟩ := r
  obtain ⟨start', stop'⟩ := s
  rw [le_iff] at hrs hsr
  simp only [mk.injEq] at hrs hsr ⊢
  omega

private theorem sort_of_perm {ranges others : List Range} (h : ranges.Perm others) :
    sort ranges = sort others := by
  have hperm : (sort ranges).Perm (sort others) :=
    (List.mergeSort_perm ranges le).trans (h.trans (List.mergeSort_perm others le).symm)
  exact hperm.eq_of_pairwise (fun _ _ _ _ => eq_of_le_of_le) (pairwise_sort ranges)
    (pairwise_sort others)

/-- A range that comes second overlaps the first if it starts no later than the first one stops
and does not stop before it starts. -/
theorem overlaps_iff {r s : Range} (h : r.start ≤ s.start) :
    r.overlaps s = true ↔ s.start ≤ r.stop ∧ s.start ≤ s.stop := by
  simp only [overlaps, decide_eq_true_eq]
  omega

private theorem forall_mem_joinFrom {P : Range → Prop}
    (hextend : ∀ r stop, P r → P ⟨r.start, max r.stop stop⟩) {r : Range} {rest : List Range}
    (h : ∀ s ∈ r :: rest, P s) : ∀ s ∈ joinFrom r rest, P s := by
  induction rest generalizing r with
  | nil => exact h
  | cons s rest ih =>
    obtain ⟨hr, hrest⟩ := List.forall_mem_cons.mp h
    rw [joinFrom]
    split
    · apply ih
      exact List.forall_mem_cons.mpr ⟨hextend r s.stop hr, (List.forall_mem_cons.mp hrest).2⟩
    · exact List.forall_mem_cons.mpr ⟨hr, ih hrest⟩

private theorem sorted_joinFrom {r : Range} {rest : List Range}
    (h : (r :: rest).Pairwise fun r s => r.le s = true) :
    (joinFrom r rest).Pairwise fun r s => r.le s = true := by
  induction rest generalizing r with
  | nil => exact h
  | cons s rest ih =>
    obtain ⟨hr, hrest⟩ := List.pairwise_cons.mp h
    rw [joinFrom]
    split
    · exact ih (pairwise_extend h)
    · refine List.pairwise_cons.mpr ⟨?_, ih hrest⟩
      apply forall_mem_joinFrom
      · intro q stop hq
        exact le_trans hq (le_iff.mpr (.inr ⟨rfl, Nat.le_max_left _ _⟩))
      · exact hr

/-- The first range keeps its start, and it gets a new stop only if it does not stop before it
starts. -/
theorem exists_head_joinFrom (r : Range) (rest : List Range) :
    ∃ stop tail, joinFrom r rest = ⟨r.start, stop⟩ :: tail ∧
      (stop = r.stop ∨ r.start ≤ r.stop) := by
  induction rest generalizing r with
  | nil => exact ⟨r.stop, [], rfl, .inl rfl⟩
  | cons s rest ih =>
    rw [joinFrom]
    split
    · next hover =>
      obtain ⟨stop, tail, htail, _⟩ := ih ⟨r.start, max r.stop s.stop⟩
      simp only [overlaps, decide_eq_true_eq] at hover
      exact ⟨stop, tail, htail, .inr (by omega)⟩
    · exact ⟨r.stop, joinFrom s rest, rfl, .inl rfl⟩

private theorem gaps_joinFrom {r : Range} {rest : List Range}
    (h : (r :: rest).Pairwise fun r s => r.le s = true) :
    (joinFrom r rest).IsChain fun r s => ¬ r.overlaps s = true := by
  induction rest generalizing r with
  | nil => exact .singleton r
  | cons s rest ih =>
    obtain ⟨hr, hrest⟩ := List.pairwise_cons.mp h
    have hstart := start_le_of_le (hr s (by simp))
    rw [joinFrom]
    split
    · exact ih (pairwise_extend h)
    · next hover =>
      obtain ⟨stop, tail, htail, hstop⟩ := exists_head_joinFrom s rest
      have hgaps := ih hrest
      rw [htail] at hgaps ⊢
      refine List.isChain_cons_cons.mpr ⟨?_, hgaps⟩
      -- if `s` got longer it did not stop before it starts, so it starts after `r` stops
      have hstart' : r.start ≤ (⟨s.start, stop⟩ : Range).start := hstart
      rw [overlaps_iff hstart] at hover
      rw [overlaps_iff hstart']
      simp only
      omega

private theorem joinFrom_of_gaps {r : Range} {rest : List Range}
    (h : (r :: rest).IsChain fun r s => ¬ r.overlaps s = true) : joinFrom r rest = r :: rest := by
  induction rest generalizing r with
  | nil => rfl
  | cons s rest ih =>
    obtain ⟨hrs, hrest⟩ := List.isChain_cons_cons.mp h
    rw [joinFrom, if_neg hrs, ih hrest]

structure Joined (ranges : List Range) : Prop where
  sorted : ranges.Pairwise fun r s => r.le s = true
  gaps : ranges.IsChain fun r s => ¬ r.overlaps s = true

private theorem joined_merge (ranges : List Range) : Joined (merge ranges) := by
  have hsorted := pairwise_sort ranges
  rw [merge]
  cases hs : sort ranges with
  | nil => exact ⟨.nil, .nil⟩
  | cons r rest =>
    rw [hs] at hsorted
    exact ⟨sorted_joinFrom hsorted, gaps_joinFrom hsorted⟩

private theorem Joined.merge_eq {ranges : List Range} (h : Joined ranges) :
    merge ranges = ranges := by
  rw [merge, sort, List.mergeSort_of_pairwise h.sorted]
  cases ranges with
  | nil => rfl
  | cons r rest => exact joinFrom_of_gaps h.gaps

/-- Whatever the ranges are, merging them twice changes nothing more, their order makes no
difference, and the result is sorted and holds the same lines. -/
theorem merge_normalizes (ranges : List Range) :
    merge (merge ranges) = merge ranges ∧
    (∀ others, ranges.Perm others → merge others = merge ranges) ∧
    ((merge ranges).Pairwise fun r s =>
      r.start < s.start ∨ (r.start = s.start ∧ r.stop ≤ s.stop)) ∧
    ∀ line, Covered (merge ranges) line ↔ Covered ranges line := by
  have hjoined := joined_merge ranges
  refine ⟨hjoined.merge_eq, ?_, hjoined.sorted.imp le_iff.mp, covered_merge ranges⟩
  intro others hperm
  rw [merge, merge, sort_of_perm hperm]

/-- A range that stops before it starts stays between two that share lines. -/
theorem inverted_merge_normalizes :
    [⟨6, 8⟩, ⟨5, 3⟩, ⟨0, 10⟩].Perm [⟨0, 10⟩, ⟨5, 3⟩, (⟨6, 8⟩ : Range)] ∧
    merge [⟨0, 10⟩, ⟨5, 3⟩, ⟨6, 8⟩] = [⟨0, 10⟩, ⟨5, 3⟩, ⟨6, 8⟩] ∧
    merge [⟨0, 10⟩, ⟨5, 3⟩, ⟨6, 8⟩] = merge [⟨6, 8⟩, ⟨5, 3⟩, ⟨0, 10⟩] := by
  have hperm : [⟨6, 8⟩, ⟨5, 3⟩, ⟨0, 10⟩].Perm [⟨0, 10⟩, ⟨5, 3⟩, (⟨6, 8⟩ : Range)] := by decide
  have hjoined : Joined [⟨0, 10⟩, ⟨5, 3⟩, ⟨6, 8⟩] := ⟨by decide, by decide⟩
  exact ⟨hperm, hjoined.merge_eq, (merge_normalizes _).2.1 _ hperm⟩

/-- No range is empty, and each one stops before the next one starts. -/
structure Apart (ranges : List Range) : Prop where
  nonempty : ∀ r ∈ ranges, r.start < r.stop
  gaps : ranges.Pairwise fun r s => r.stop < s.start

private theorem Joined.apart {ranges : List Range} (h : Joined ranges)
    (hne : ∀ r ∈ ranges, r.start < r.stop) : Apart ranges where
  nonempty := hne
  gaps := by
    obtain ⟨hsorted, hgaps⟩ := h
    induction ranges with
    | nil => exact .nil
    | cons r ranges ih =>
      obtain ⟨hr, htail⟩ := List.pairwise_cons.mp hsorted
      obtain ⟨_, hne⟩ := List.forall_mem_cons.mp hne
      refine List.pairwise_cons.mpr ⟨?_, ih hne htail hgaps.of_cons⟩
      cases ranges with
      | nil => simp
      | cons s rest =>
        have hgap : r.stop < s.start := by
          have hover := (List.isChain_cons_cons.mp hgaps).1
          rw [overlaps_iff (start_le_of_le (hr s (by simp)))] at hover
          have hs := hne s (by simp)
          omega
        intro q hq
        rcases List.mem_cons.mp hq with rfl | hq
        · exact hgap
        · exact Nat.lt_of_lt_of_le hgap (start_le_of_le ((List.pairwise_cons.mp htail).1 q hq))

private theorem apart_merge {ranges : List Range} (h : ∀ r ∈ ranges, r.start < r.stop) :
    Apart (merge ranges) := by
  apply (joined_merge ranges).apart
  have hsort : ∀ r ∈ sort ranges, r.start < r.stop := by
    intro r hr
    exact h r (List.mem_mergeSort.mp hr)
  rw [merge]
  cases hs : sort ranges with
  | nil => simp [join]
  | cons r rest =>
    rw [hs] at hsort
    refine forall_mem_joinFrom ?_ hsort
    intro r stop hr
    simp only
    omega

namespace Apart
variable {r : Range} {rest : List Range}

private theorem tail (h : Apart (r :: rest)) : Apart rest :=
  ⟨(List.forall_mem_cons.mp h.nonempty).2, (List.pairwise_cons.mp h.gaps).2⟩

private theorem stop_lt_of_covered (h : Apart (r :: rest)) {line : Nat}
    (hline : Covered rest line) :
    r.stop < line := by
  obtain ⟨s, hs, hcontains⟩ := hline
  have hgap := (List.pairwise_cons.mp h.gaps).1 s hs
  have hstart := (contains_iff.mp hcontains).1
  omega

private theorem start_le_of_covered (h : Apart (r :: rest)) {line : Nat}
    (hline : Covered (r :: rest) line) : r.start ≤ line := by
  rcases covered_cons.mp hline with hr | hrest
  · exact (contains_iff.mp hr).1
  · have hlt := h.stop_lt_of_covered hrest
    have hr := h.nonempty r (by simp)
    omega

private theorem covered_start (h : Apart (r :: rest)) : Covered (r :: rest) r.start := by
  have hr := h.nonempty r (by simp)
  exact covered_cons.mpr (.inl (contains_iff.mpr ⟨Nat.le_refl _, hr⟩))

private theorem not_covered_stop (h : Apart (r :: rest)) : ¬ Covered (r :: rest) r.stop := by
  intro hline
  rcases covered_cons.mp hline with hr | hrest
  · exact Nat.lt_irrefl _ (contains_iff.mp hr).2
  · exact Nat.lt_irrefl _ (h.stop_lt_of_covered hrest)

private theorem covered_tail_iff (h : Apart (r :: rest)) {line : Nat} :
    Covered rest line ↔ Covered (r :: rest) line ∧ r.stop ≤ line := by
  constructor
  · intro hline
    exact ⟨covered_cons.mpr (.inr hline), Nat.le_of_lt (h.stop_lt_of_covered hline)⟩
  · intro hline
    rcases covered_cons.mp hline.1 with hr | hrest
    · exact absurd (contains_iff.mp hr).2 (Nat.not_lt.mpr hline.2)
    · exact hrest

section SameLines
variable {s : Range} {others : List Range}
  (hsame : ∀ line, Covered (r :: rest) line ↔ Covered (s :: others) line)
include hsame

private theorem start_le_start (h : Apart (r :: rest)) (h' : Apart (s :: others)) :
    r.start ≤ s.start :=
  h.start_le_of_covered ((hsame s.start).mpr h'.covered_start)

private theorem stop_le_stop (h : Apart (r :: rest)) (h' : Apart (s :: others)) :
    r.stop ≤ s.stop := by
  have hstart := start_le_start hsame h h'
  have hs := h'.nonempty s (by simp)
  by_contra hlt
  apply h'.not_covered_stop
  rw [← hsame]
  exact covered_cons.mpr (.inl (contains_iff.mpr ⟨by omega, by omega⟩))

end SameLines

/-- Ranges that are apart are determined by the lines they hold. -/
theorem eq_of_covered {ranges others : List Range} (h : Apart ranges) (h' : Apart others)
    (hsame : ∀ line, Covered ranges line ↔ Covered others line) : ranges = others := by
  induction ranges generalizing others with
  | nil =>
    cases others with
    | nil => rfl
    | cons s others => exact absurd ((hsame s.start).mpr h'.covered_start) (not_covered_nil _)
  | cons r ranges ih =>
    cases others with
    | nil => exact absurd ((hsame r.start).mp h.covered_start) (not_covered_nil _)
    | cons s others =>
      have hsame' := fun line => (hsame line).symm
      have hstart := Nat.le_antisymm (start_le_start hsame h h') (start_le_start hsame' h' h)
      have hstop := Nat.le_antisymm (stop_le_stop hsame h h') (stop_le_stop hsame' h' h)
      have hrest : ∀ line, Covered ranges line ↔ Covered others line := by
        intro line
        rw [h.covered_tail_iff, h'.covered_tail_iff, hsame, hstop]
      obtain ⟨start, stop⟩ := r
      obtain ⟨start', stop'⟩ := s
      simp only at hstart hstop
      rw [hstart, hstop, ih h.tail h'.tail hrest]

end Apart

/-- Ranges that are not empty merge into ranges that are apart, and two lists of them merge into
the same ranges exactly if they hold the same lines. -/
theorem merge_canonical (ranges others : List Range) (h : ∀ r ∈ ranges, r.start < r.stop)
    (h' : ∀ r ∈ others, r.start < r.stop) :
    Apart (merge ranges) ∧
    (merge ranges = merge others ↔ ∀ line, Covered ranges line ↔ Covered others line) := by
  refine ⟨apart_merge h, ?_, ?_⟩
  · intro hmerge line
    rw [← covered_merge ranges, ← covered_merge others, hmerge]
  · intro hsame
    apply (apart_merge h).eq_of_covered (apart_merge h')
    intro line
    rw [covered_merge, covered_merge, hsame]

/-- A nested, an overlapping and a repeated range, against two that touch. -/
theorem nested_merge_canonical :
    (∀ r ∈ ([⟨5, 12⟩, ⟨2, 3⟩, ⟨0, 10⟩, ⟨2, 3⟩] : List Range), r.start < r.stop) ∧
    (∀ r ∈ ([⟨7, 12⟩, ⟨0, 7⟩] : List Range), r.start < r.stop) ∧
    Apart (merge [⟨5, 12⟩, ⟨2, 3⟩, ⟨0, 10⟩, ⟨2, 3⟩]) ∧
    merge [⟨5, 12⟩, ⟨2, 3⟩, ⟨0, 10⟩, ⟨2, 3⟩] = merge [⟨7, 12⟩, ⟨0, 7⟩] := by
  have h : ∀ r ∈ ([⟨5, 12⟩, ⟨2, 3⟩, ⟨0, 10⟩, ⟨2, 3⟩] : List Range), r.start < r.stop := by decide
  have h' : ∀ r ∈ ([⟨7, 12⟩, ⟨0, 7⟩] : List Range), r.start < r.stop := by decide
  have hcanonical := merge_canonical _ _ h h'
  refine ⟨h, h', hcanonical.1, hcanonical.2.mpr ?_⟩
  intro line
  simp only [covered_cons, not_covered_nil, contains_iff, or_false]
  omega

end RegisterColoring.Range
