import RegisterColoring.Proofs.Flow.Buildable
import Mathlib.Data.Nat.Find
/-!
# Which bounds are refused, and why

Bounds that come from elsewhere are read in order. The first one that is inverted, reaches beyond
the code or does not begin where its predecessor ended decides the error, and a misplaced one is
reported by the first line that is not covered exactly once.
-/
namespace RegisterColoring

namespace Bounds

/-- The number of bounds that cover a line. -/
def cover (bounds : List Bounds) (line : Nat) : Nat :=
  bounds.countP fun b => b.first ≤ line ∧ line ≤ b.last

private theorem cover_append (front rest : List Bounds) (line : Nat) :
    cover (front ++ rest) line = cover front line + cover rest line :=
  List.countP_append

private theorem cover_singleton (b : Bounds) (line : Nat) :
    cover [b] line = if b.first ≤ line ∧ line ≤ b.last then 1 else 0 := by
  simp [cover, List.countP_singleton]

/-- Where the bound at position `k` has to begin. -/
def due (bounds : List Bounds) : Nat → Nat
  | 0 => 0
  | k + 1 => (bounds[k]?.map fun b => b.last + 1).getD 0

/-- The bound at position `k` cannot be part of an ordered tiling of `length` lines. -/
def Offends (length : Nat) (bounds : List Bounds) (k : Nat) : Prop :=
  ∃ b ∈ bounds[k]?, b.last < b.first ∨ length ≤ b.last ∨ b.first ≠ due bounds k

instance (length : Nat) (bounds : List Bounds) (k : Nat) : Decidable (Offends length bounds k) :=
  inferInstanceAs (Decidable (∃ b ∈ bounds[k]?, _))

private theorem offends_iff {length : Nat} {bounds : List Bounds} {k : Nat} {b : Bounds}
    (hb : bounds[k]? = some b) : Offends length bounds k ↔
      b.last < b.first ∨ length ≤ b.last ∨ b.first ≠ due bounds k := by
  simp [Offends, hb]

private theorem Offends.lt_length {length : Nat} {bounds : List Bounds} {k : Nat}
    (h : Offends length bounds k) : k < bounds.length := by
  obtain ⟨b, hb, _⟩ := h
  exact (List.getElem?_eq_some_iff.mp hb).1

def FirstOffence (length : Nat) (bounds : List Bounds) (k : Nat) : Prop :=
  Offends length bounds k ∧ ∀ j < k, ¬ Offends length bounds j

instance (length : Nat) (bounds : List Bounds) (k : Nat) :
    Decidable (FirstOffence length bounds k) :=
  inferInstanceAs (Decidable (_ ∧ _))

/-- The line is the first of `length` lines that is not covered exactly once. -/
def FirstUneven (length : Nat) (bounds : List Bounds) (line : Nat) : Prop :=
  line < length ∧ cover bounds line ≠ 1 ∧ ∀ l < line, cover bounds l = 1

instance (length : Nat) (bounds : List Bounds) (line : Nat) :
    Decidable (FirstUneven length bounds line) :=
  inferInstanceAs (Decidable (_ ∧ _ ∧ _))

/-- The error that bounds call for. -/
inductive Complaint (function : String) (length : Nat) (bounds : List Bounds) : AllocError → Prop
  | inverted {k : Nat} {b : Bounds} (hfirst : FirstOffence length bounds k)
    (hb : bounds[k]? = some b) (h : b.last < b.first) :
    Complaint function length bounds (.invalidBlock function b.first b.last)
  | beyond {k : Nat} {b : Bounds} (hfirst : FirstOffence length bounds k)
    (hb : bounds[k]? = some b) (hle : b.first ≤ b.last) (h : length ≤ b.last) :
    Complaint function length bounds (.beyondCode function b.last length)
  | misplaced {k line : Nat} {b : Bounds} (hfirst : FirstOffence length bounds k)
    (hb : bounds[k]? = some b) (hle : b.first ≤ b.last) (hlt : b.last < length)
    (hline : FirstUneven length (bounds.take (k + 1)) line) :
    Complaint function length bounds (.notATiling function line)
  | short {line : Nat} (hnone : ∀ k, ¬ Offends length bounds k)
    (hline : FirstUneven length bounds line) :
    Complaint function length bounds (.notATiling function line)

private theorem Tiles.concat {start stop : Nat} {bounds : List Bounds} (h : Tiles stop start bounds)
    {b : Bounds} (hfirst : b.first = stop) (hle : b.first ≤ b.last) :
    Tiles (b.last + 1) start (bounds ++ [b]) := by
  induction bounds generalizing start with
  | nil =>
    have hstart : start = stop := h
    exact ⟨hfirst.trans hstart.symm, hle, Nat.lt_succ_self _, rfl⟩
  | cons c rest ih =>
    obtain ⟨hc, hcle, hclt, hrest⟩ := h
    refine ⟨hc, hcle, ?_, ih hrest⟩
    omega

private theorem Tiles.start_le {start stop : Nat} {bounds : List Bounds}
    (h : Tiles stop start bounds) :
    start ≤ stop := by
  cases bounds with
  | nil => exact Nat.le_of_eq h
  | cons b rest =>
    obtain ⟨hfirst, hle, hlt, _⟩ := h
    omega

private theorem Tiles.cover_eq {start stop : Nat} {bounds : List Bounds}
    (h : Tiles stop start bounds)
    (line : Nat) : cover bounds line = if start ≤ line ∧ line < stop then 1 else 0 := by
  induction bounds generalizing start with
  | nil =>
    have hstart : start = stop := h
    have hout : ¬ (start ≤ line ∧ line < stop) := by omega
    rw [if_neg hout]
    rfl
  | cons b rest ih =>
    obtain ⟨hfirst, hle, _, hrest⟩ := h
    have hstop := hrest.start_le
    rw [← List.singleton_append, cover_append, cover_singleton, ih hrest]
    split <;> split <;> split <;> omega

private theorem check_append (function : String) {length start stop : Nat} {front : List Bounds}
    (h : Tiles stop start front) (hstop : stop ≤ length) (rest : List Bounds) :
    check function length start (front ++ rest) = check function length stop rest := by
  induction front generalizing start with
  | nil =>
    have hstart : start = stop := h
    rw [hstart, List.nil_append]
  | cons b front ih =>
    obtain ⟨hfirst, hle, hlt, hfront⟩ := h
    have hinside : ¬ length ≤ b.last := by omega
    rw [List.cons_append, check, if_neg (Nat.not_lt.mpr hle), if_neg hinside, if_pos hfirst]
    exact ih hfront

private theorem due_succ {bounds : List Bounds} {k : Nat} {b : Bounds} (hb : bounds[k]? = some b) :
    due bounds (k + 1) = b.last + 1 := by
  simp [due, hb]

/-- The bounds in front of the first one that offends tile the code up to where it has to begin. -/
theorem tiles_take {length : Nat} {bounds : List Bounds} {k : Nat} (hk : k ≤ bounds.length)
    (h : ∀ j < k, ¬ Offends length bounds j) :
    Tiles (due bounds k) 0 (bounds.take k) ∧ due bounds k ≤ length := by
  induction k with
  | zero => exact ⟨rfl, Nat.zero_le length⟩
  | succ k ih =>
    have hb : bounds[k]? = some (bounds[k]) := List.getElem?_eq_getElem hk
    obtain ⟨htiles, _⟩ := ih (Nat.le_of_succ_le hk) fun j hj => h j (Nat.lt_succ_of_lt hj)
    have hfit := h k (Nat.lt_succ_self k)
    rw [offends_iff hb, not_or, not_or, Nat.not_lt, Nat.not_le, not_not] at hfit
    obtain ⟨hle, hlt, hfirst⟩ := hfit
    rw [due_succ hb, ← List.take_append_getElem hk]
    exact ⟨htiles.concat hfirst hle, hlt⟩

private theorem Tiles.firstUneven {length stop : Nat} {bounds : List Bounds}
    (h : Tiles stop 0 bounds) (hlt : stop < length) : FirstUneven length bounds stop := by
  refine ⟨hlt, ?_, fun l hl => ?_⟩
  · simp [h.cover_eq]
  · simp [h.cover_eq, hl]

/-- A bound after a gap leaves the first line of the gap uncovered, and one that overlaps the
tiling covers its own first line a second time. -/
theorem Tiles.firstUneven_concat {length stop : Nat} {bounds : List Bounds}
    (h : Tiles stop 0 bounds) (hstop : stop ≤ length) {b : Bounds} (hle : b.first ≤ b.last)
    (hlt : b.last < length) (hne : b.first ≠ stop) :
    FirstUneven length (bounds ++ [b]) (min b.first stop) := by
  have hcover : ∀ line, cover (bounds ++ [b]) line =
      (if line < stop then 1 else 0) + if b.first ≤ line ∧ line ≤ b.last then 1 else 0 := by
    intro line
    rw [cover_append, cover_singleton, h.cover_eq]
    simp
  refine ⟨by omega, ?_, fun l hl => ?_⟩
  · rw [hcover]
    split <;> split <;> omega
  · rw [hcover]
    split <;> split <;> omega

private theorem FirstUneven.unique {length : Nat} {bounds : List Bounds} {line line' : Nat}
    (h : FirstUneven length bounds line) (h' : FirstUneven length bounds line') : line = line' := by
  rcases Nat.lt_trichotomy line line' with hlt | heq | hlt
  · exact absurd (h'.2.2 line hlt) h.2.1
  · exact heq
  · exact absurd (h.2.2 line' hlt) h'.2.1

section Complaint
variable {length : Nat} {bounds : List Bounds}

private theorem FirstOffence.tiles {k : Nat} (h : FirstOffence length bounds k) :
    Tiles (due bounds k) 0 (bounds.take k) ∧ due bounds k ≤ length :=
  tiles_take (Nat.le_of_lt h.1.lt_length) h.2

section Offence
variable {k : Nat} {b : Bounds} (h : FirstOffence length bounds k) (hb : bounds[k]? = some b)
include h hb

private theorem FirstOffence.check_eq (function : String) : check function length 0 bounds =
    check function length (due bounds k) (b :: bounds.drop (k + 1)) := by
  obtain ⟨htiles, hle⟩ := h.tiles
  obtain ⟨hk, hget⟩ := List.getElem?_eq_some_iff.mp hb
  rw [← check_append function htiles hle, ← hget, ← List.drop_eq_getElem_cons hk,
    List.take_append_drop]

private theorem FirstOffence.firstUneven (hle : b.first ≤ b.last) (hlt : b.last < length) :
    b.first ≠ due bounds k ∧
      FirstUneven length (bounds.take (k + 1)) (min b.first (due bounds k)) := by
  have hne : b.first ≠ due bounds k := by
    have hoffends := (offends_iff hb).mp h.1
    omega
  obtain ⟨htiles, hdue⟩ := h.tiles
  obtain ⟨hk, hget⟩ := List.getElem?_eq_some_iff.mp hb
  rw [← List.take_append_getElem hk, hget]
  exact ⟨hne, htiles.firstUneven_concat hdue hle hlt hne⟩

end Offence

private theorem tiles_of_not_offends (h : ∀ k, ¬ Offends length bounds k) :
    ∃ stop, Tiles stop 0 bounds ∧ stop ≤ length := by
  have htake := tiles_take (Nat.le_refl bounds.length) fun j _ => h j
  rw [List.take_length] at htake
  exact ⟨_, htake⟩

private theorem Complaint.check_eq {function : String} {e : AllocError}
    (h : Complaint function length bounds e) : check function length 0 bounds = .error e := by
  cases h with
  | inverted hfirst hb hinv => rw [hfirst.check_eq hb, check, if_pos hinv]
  | beyond hfirst hb hle hbeyond =>
    rw [hfirst.check_eq hb, check, if_neg (Nat.not_lt.mpr hle), if_pos hbeyond]
  | misplaced hfirst hb hle hlt hline =>
    obtain ⟨hne, huneven⟩ := hfirst.firstUneven hb hle hlt
    rw [hfirst.check_eq hb, check, if_neg (Nat.not_lt.mpr hle), if_neg (Nat.not_le.mpr hlt),
      if_neg hne, huneven.unique hline]
  | @short line hnone hline =>
    obtain ⟨stop, htiles, hstop⟩ := tiles_of_not_offends hnone
    have hcheck := check_append function htiles hstop []
    rw [List.append_nil] at hcheck
    have hlt : stop < length := by
      apply Nat.lt_of_le_of_ne hstop
      intro heq
      apply hline.2.1
      simp [htiles.cover_eq, heq, hline.1]
    rw [hcheck, check, if_neg (Nat.ne_of_lt hlt), (htiles.firstUneven hlt).unique hline]

private theorem exists_complaint (function : String) (h : ¬ Tiles length 0 bounds) :
    ∃ e, Complaint function length bounds e := by
  by_cases hoffends : ∃ k, Offends length bounds k
  · have hfirst : FirstOffence length bounds (Nat.find hoffends) :=
      ⟨Nat.find_spec hoffends, fun j hj => Nat.find_min hoffends hj⟩
    obtain ⟨b, hb, _⟩ := hfirst.1
    rcases Nat.lt_or_ge b.last b.first with hinv | hle
    · exact ⟨_, .inverted hfirst hb hinv⟩
    rcases Nat.lt_or_ge b.last length with hlt | hbeyond
    · exact ⟨_, .misplaced hfirst hb hle hlt (hfirst.firstUneven hb hle hlt).2⟩
    · exact ⟨_, .beyond hfirst hb hle hbeyond⟩
  · have hnone : ∀ k, ¬ Offends length bounds k := fun k hk => hoffends ⟨k, hk⟩
    obtain ⟨stop, htiles, hstop⟩ := tiles_of_not_offends hnone
    have hlt : stop < length := by
      apply Nat.lt_of_le_of_ne hstop
      intro heq
      exact h (heq ▸ htiles)
    exact ⟨_, .short hnone (htiles.firstUneven hlt)⟩

private theorem check_eq_error_iff (function : String) (length : Nat) (bounds : List Bounds)
    (e : AllocError) :
    check function length 0 bounds = .error e ↔ Complaint function length bounds e := by
  refine ⟨fun herror => ?_, Complaint.check_eq⟩
  have hnot : ¬ Tiles length 0 bounds := by
    intro htiles
    rw [(check_eq_ok_iff function length 0 bounds).mpr htiles] at herror
    cases herror
  obtain ⟨e', he'⟩ := exists_complaint function hnot
  have hsame := he'.check_eq
  rw [herror] at hsame
  rwa [Except.error.inj hsame]

end Complaint

end Bounds

namespace FlowGraph

/-- If the table holds the variables of a function, bounds are accepted exactly if they tile its
code in order, and else the error is the one that the first offending bound calls for. -/
theorem ofBounds_diagnosis {f : Function} {t : SymbolTable}
    (h : ∀ v ∈ f.accessed, t.contains v = true) (bounds : List Bounds) :
    ((∃ g, ofBounds f t bounds = .ok g) ↔ Bounds.Tiles f.code.length 0 bounds) ∧
    ∀ e, ofBounds f t bounds = .error e ↔
      Bounds.Complaint f.name f.code.length bounds e := by
  have haccept : Bounds.Tiles f.code.length 0 bounds → ∃ g, ofBounds f t bounds = .ok g := by
    intro htiles
    apply (ofBounds_of_tiles htiles).2
    simpa using h
  constructor
  · refine ⟨?_, haccept⟩
    rintro ⟨g, hg⟩
    exact (record_eq_ok hg).1
  · intro e
    rw [← Bounds.check_eq_error_iff]
    cases hcheck : Bounds.check f.name f.code.length 0 bounds with
    | error e' => simp [ofBounds, hcheck]
    | ok _ =>
      obtain ⟨g, hg⟩ := haccept ((Bounds.check_eq_ok_iff _ _ _ _).mp hcheck)
      simp [hg]

/-- An overlap comes before the inverted bound behind it, an inverted bound is not asked where it
begins, and a tiling may end too early. -/
theorem spin_ofBounds_diagnosis :
    (∀ v ∈ spin.accessed, spinTable.contains v = true) ∧
    (∃ g, ofBounds spin spinTable [⟨0, 3⟩, ⟨4, 5⟩] = .ok g) ∧
    ofBounds spin spinTable [⟨0, 2⟩, ⟨1, 4⟩, ⟨5, 3⟩] = .error (.notATiling "spin" 1) ∧
    ofBounds spin spinTable [⟨0, 2⟩, ⟨9, 7⟩] = .error (.invalidBlock "spin" 9 7) ∧
    ofBounds spin spinTable [⟨0, 2⟩, ⟨4, 6⟩] = .error (.beyondCode "spin" 6 6) ∧
    ofBounds spin spinTable [⟨0, 2⟩, ⟨3, 4⟩] = .error (.notATiling "spin" 5) := by
  have h : ∀ v ∈ spin.accessed, spinTable.contains v = true := by decide
  refine ⟨h, ?_, ?_, ?_, ?_, ?_⟩
  · apply (ofBounds_diagnosis h _).1.mpr
    simp [Bounds.Tiles, spin]
  · apply ((ofBounds_diagnosis h _).2 _).mpr
    exact .misplaced (k := 1) (by decide) rfl (by decide) (by decide) (by decide)
  · apply ((ofBounds_diagnosis h _).2 _).mpr
    exact .inverted (k := 1) (b := ⟨9, 7⟩) (by decide) rfl (by decide)
  · apply ((ofBounds_diagnosis h _).2 _).mpr
    exact .beyond (k := 1) (b := ⟨4, 6⟩) (by decide) rfl (by decide) (by decide)
  · apply ((ofBounds_diagnosis h _).2 _).mpr
    have hnone : ∀ k < 2, ¬ Bounds.Offends 6 [⟨0, 2⟩, ⟨3, 4⟩] k := by decide
    exact .short (fun k hk => hnone k hk.lt_length hk) (by decide)

end FlowGraph

end RegisterColoring
