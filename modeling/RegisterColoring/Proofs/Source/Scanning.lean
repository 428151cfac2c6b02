import RegisterColoring.Proofs.Text
import RegisterColoring.Source.Lexeme
/-!
# Comments and commas do not see blanks

Whether a comment sign or a comma is protected depends on the quotes and brackets before it. Blanks
are neither, so two texts with the same characters besides blanks are scanned in the same way.
-/
namespace RegisterColoring.Source
open Text

/-- The text without its blanks. -/
def compact (cs : List Char) : List Char := cs.filter fun c => !isBlank c

theorem compact_append (as bs : List Char) : compact (as ++ bs) = compact as ++ compact bs :=
  List.filter_append _ _

theorem compact_cons (c : Char) (cs : List Char) :
    compact (c :: cs) = if isBlank c then compact cs else c :: compact cs := by
  cases h : isBlank c <;> simp [compact, h]

private theorem compact_eq_nil {cs : List Char} (h : ∀ c ∈ cs, isBlank c = true) :
    compact cs = [] := by
  simpa [compact] using h

theorem compact_trim (cs : List Char) : compact (trim cs) = compact cs := by
  obtain ⟨before, after, hcs, hbefore, hafter⟩ := exists_append_trim cs
  conv_rhs => rw [hcs]
  rw [compact_append, compact_append, compact_eq_nil hbefore, compact_eq_nil hafter,
    List.nil_append, List.append_nil]

theorem compact_intercalate (pieces : List (List Char)) :
    compact ([','].intercalate pieces) = [','].intercalate (pieces.map compact) := by
  induction pieces with
  | nil => rfl
  | cons piece pieces ih =>
    cases pieces with
    | nil => simp
    | cons next pieces =>
      rw [List.map_cons, List.map_cons, List.intercalate_cons_cons, List.intercalate_cons_cons,
        compact_append, compact_append, ih]
      rfl

/-- The quote that is open, and the depth of the brackets. -/
abbrev ScanState := Option Char × Nat

def scan (s : ScanState) (c : Char) : ScanState := (quoteAfter s.1 c, depthAfter s.1 s.2 c)

private theorem ne_of_isBlank {c d : Char} (hc : isBlank c = true) (hd : isBlank d = false) :
    c ≠ d := by
  rintro rfl
  rw [hc] at hd
  cases hd

def scanSigns : List Char := ['"', '\'', '[', ']']

theorem not_mem_scanSigns_of_isBlank {c : Char} (hc : isBlank c = true) : c ∉ scanSigns := by
  intro hmem
  have hsigns : scanSigns.any isBlank = false := by decide
  exact List.any_eq_false.mp hsigns c hmem hc

theorem scan_of_not_mem {s : ScanState} {c : Char} (hs : s.1 = none) (hc : c ∉ scanSigns) :
    scan s c = s := by
  obtain ⟨quote, depth⟩ := s
  obtain rfl : quote = none := hs
  simp only [scanSigns, List.mem_cons, not_or] at hc
  simp [scan, quoteAfter, depthAfter, hc]

theorem foldl_scan_of_not_mem {s : ScanState} {cs : List Char} (hs : s.1 = none)
    (hcs : ∀ c ∈ cs, c ∉ scanSigns) : cs.foldl scan s = s := by
  induction cs with
  | nil => rfl
  | cons c cs ih =>
    rw [List.foldl_cons, scan_of_not_mem hs (hcs c (by simp))]
    exact ih fun d hd => hcs d (by simp [hd])

/-- No blank closes the open quote. -/
def Proper (s : ScanState) : Prop := ∀ q ∈ s.1, isBlank q = false

private theorem proper_scan {s : ScanState} (hs : Proper s) (c : Char) : Proper (scan s c) := by
  obtain ⟨quote, depth⟩ := s
  intro q hq
  cases quote with
  | none =>
    simp only [scan, quoteAfter] at hq
    split at hq
    · next hc =>
      obtain rfl := Option.some.inj hq
      rcases hc with rfl | rfl <;> decide
    · cases hq
  | some mark =>
    simp only [scan, quoteAfter] at hq
    split at hq
    · cases hq
    · exact hs q hq

private theorem scan_of_isBlank {s : ScanState} (hs : Proper s) {c : Char} (hc : isBlank c = true) :
    scan s c = s := by
  obtain ⟨quote, depth⟩ := s
  cases quote with
  | none => exact scan_of_not_mem rfl (not_mem_scanSigns_of_isBlank hc)
  | some q => simp [scan, quoteAfter, depthAfter, ne_of_isBlank hc (hs q rfl)]

private theorem foldl_scan_compact {s : ScanState} (hs : Proper s) (cs : List Char) :
    (compact cs).foldl scan s = cs.foldl scan s := by
  induction cs generalizing s with
  | nil => rfl
  | cons c cs ih =>
    rw [compact_cons, List.foldl_cons]
    split
    · next hc => rw [scan_of_isBlank hs hc, ih hs]
    · rw [List.foldl_cons, ih (proper_scan hs c)]

/-- Every character is allowed in the state in which the scan meets it. -/
def Along (allowed : ScanState → Char → Prop) : ScanState → List Char → Prop
  | _, [] => True
  | s, c :: cs => allowed s c ∧ Along allowed (scan s c) cs

section Along
variable {allowed : ScanState → Char → Prop}

theorem along_append (s : ScanState) (as bs : List Char) :
    Along allowed s (as ++ bs) ↔ Along allowed s as ∧ Along allowed (as.foldl scan s) bs := by
  induction as generalizing s with
  | nil => simp [Along]
  | cons a as ih => simp only [List.cons_append, Along, List.foldl_cons, ih, and_assoc]

theorem along_compact (hblank : ∀ s c, isBlank c = true → allowed s c) {s : ScanState}
    (hs : Proper s) (cs : List Char) : Along allowed s (compact cs) ↔ Along allowed s cs := by
  induction cs generalizing s with
  | nil => exact Iff.rfl
  | cons c cs ih =>
    rw [compact_cons]
    split
    · next hc =>
      rw [ih hs, Along, scan_of_isBlank hs hc]
      exact (and_iff_right (hblank s c hc)).symm
    · rw [Along, Along, ih (proper_scan hs c)]

theorem along_middle {s : ScanState} (hs : s.1 = none) {before middle after : List Char}
    (hbefore : ∀ c ∈ before, c ∉ scanSigns)
    (h : Along allowed s (before ++ (middle ++ after))) : Along allowed s middle := by
  rw [along_append, along_append, foldl_scan_of_not_mem hs hbefore] at h
  exact h.2.1

end Along

def NoComment (s : ScanState) (c : Char) : Prop := ¬ (s.1 = none ∧ c = '#')

theorem noComment_of_isBlank (s : ScanState) (c : Char) (hc : isBlank c = true) : NoComment s c :=
  fun h => ne_of_isBlank hc (by decide) h.2

theorem along_beforeComment (s : ScanState) (cs : List Char) :
    Along NoComment s (beforeComment s.1 cs) := by
  induction cs generalizing s with
  | nil => trivial
  | cons c cs ih =>
    rw [beforeComment]
    split
    · trivial
    · next hc => exact ⟨hc, ih (scan s c)⟩

theorem beforeComment_eq_self {s : ScanState} {cs : List Char} (h : Along NoComment s cs) :
    beforeComment s.1 cs = cs := by
  induction cs generalizing s with
  | nil => rfl
  | cons c cs ih =>
    rw [beforeComment, if_neg h.1]
    exact congrArg (c :: ·) (ih h.2)

def NoComma (s : ScanState) (c : Char) : Prop := ¬ (s.1 = none ∧ s.2 = 0 ∧ c = ',')

private theorem noComma_of_isBlank (s : ScanState) (c : Char) (hc : isBlank c = true) :
    NoComma s c :=
  fun h => ne_of_isBlank hc (by decide) h.2.2

/-- Pieces none of which holds a comma outside quotes and brackets, and of which all but the last
close their quotes and brackets. The scan of the first begins in state `s`. -/
def Separated : ScanState → List (List Char) → Prop
  | _, [] => False
  | s, [piece] => Along NoComma s piece
  | s, piece :: next :: rest =>
    Along NoComma s piece ∧ piece.foldl scan s = (none, 0) ∧ Separated (none, 0) (next :: rest)

private theorem separated_consHead {s : ScanState} {c : Char} {pieces : List (List Char)}
    (hc : NoComma s c) (h : Separated (scan s c) pieces) : Separated s (consHead c pieces) := by
  cases pieces with
  | nil => exact h.elim
  | cons piece rest =>
    cases rest with
    | nil => exact ⟨hc, h⟩
    | cons next rest => exact ⟨⟨hc, h.1⟩, h.2⟩

theorem separated_commaPieces (s : ScanState) (cs : List Char) :
    Separated s (commaPieces s.1 s.2 cs) := by
  induction cs generalizing s with
  | nil => trivial
  | cons c cs ih =>
    rw [commaPieces]
    split
    · next hc =>
      have hrest := ih (none, 0)
      obtain ⟨piece, rest, hpieces⟩ : ∃ piece rest, commaPieces none 0 cs = piece :: rest := by
        cases hpieces : commaPieces none 0 cs with
        | nil => rw [hpieces] at hrest; exact hrest.elim
        | cons piece rest => exact ⟨piece, rest, rfl⟩
      rw [hpieces] at hrest ⊢
      exact ⟨trivial, Prod.ext hc.1 hc.2.1, hrest⟩
    · next hc => exact separated_consHead hc (ih (scan s c))

private theorem intercalate_consHead {c : Char} {pieces : List (List Char)} (h : pieces ≠ []) :
    [','].intercalate (consHead c pieces) = c :: [','].intercalate pieces := by
  cases pieces with
  | nil => exact (h rfl).elim
  | cons piece rest => cases rest <;> simp [consHead]

theorem intercalate_commaPieces (quote : Option Char) (depth : Nat) (cs : List Char) :
    [','].intercalate (commaPieces quote depth cs) = cs := by
  have hne : ∀ quote depth cs, commaPieces quote depth cs ≠ [] := by
    intro quote depth cs he
    have := separated_commaPieces (quote, depth) cs
    simp only [he] at this
    exact this
  induction cs generalizing quote depth with
  | nil => rfl
  | cons c cs ih =>
    rw [commaPieces]
    split
    · next hc =>
      obtain ⟨piece, rest, hpieces⟩ := List.exists_cons_of_ne_nil (hne none 0 cs)
      rw [hpieces, List.intercalate_cons_cons, ← hpieces, ih, hc.2.2]
      rfl
    · rw [intercalate_consHead (hne _ _ _), ih]

private theorem commaPieces_of_along {s : ScanState} {piece : List Char}
    (h : Along NoComma s piece) :
    commaPieces s.1 s.2 piece = [piece] := by
  induction piece generalizing s with
  | nil => rfl
  | cons c piece ih =>
    have hrest : commaPieces (quoteAfter s.1 c) (depthAfter s.1 s.2 c) piece = [piece] := ih h.2
    rw [commaPieces, if_neg h.1, hrest]
    rfl

private theorem commaPieces_append {s : ScanState} {piece : List Char} (h : Along NoComma s piece)
    (hclosed : piece.foldl scan s = (none, 0)) (cs : List Char) :
    commaPieces s.1 s.2 (piece ++ ',' :: cs) = piece :: commaPieces none 0 cs := by
  induction piece generalizing s with
  | nil =>
    obtain rfl : s = (none, 0) := hclosed
    rfl
  | cons c piece ih =>
    have hrest : commaPieces (quoteAfter s.1 c) (depthAfter s.1 s.2 c) (piece ++ ',' :: cs) =
      piece :: commaPieces none 0 cs := ih h.2 hclosed
    rw [List.cons_append, commaPieces, if_neg h.1, hrest]
    rfl

/-- Separated pieces are found again after they have been joined with commas. -/
theorem commaPieces_intercalate {s : ScanState} {pieces : List (List Char)}
    (h : Separated s pieces) : commaPieces s.1 s.2 ([','].intercalate pieces) = pieces := by
  induction pieces generalizing s with
  | nil => exact h.elim
  | cons piece rest ih =>
    cases rest with
    | nil =>
      rw [List.intercalate_singleton]
      exact commaPieces_of_along h
    | cons next rest =>
      obtain ⟨hpiece, hclosed, hrest⟩ := h
      rw [List.intercalate_cons_cons, List.append_assoc, List.singleton_append,
        commaPieces_append hpiece hclosed, ih hrest]

theorem Separated.congr {s : ScanState} (hs : Proper s) {pieces pieces' : List (List Char)}
    (hcompact : pieces.map compact = pieces'.map compact) (h : Separated s pieces) :
    Separated s pieces' := by
  induction pieces generalizing s pieces' with
  | nil => exact h.elim
  | cons piece rest ih =>
    obtain ⟨piece', rest', rfl, hpiece, hrest⟩ := List.map_eq_cons_iff.mp hcompact.symm
    have halong : Along NoComma s piece → Along NoComma s piece' := by
      rw [← along_compact noComma_of_isBlank hs piece, ← hpiece, along_compact noComma_of_isBlank hs]
      exact id
    cases rest with
    | nil =>
      obtain rfl := List.map_eq_nil_iff.mp hrest
      exact halong h
    | cons next rest =>
      obtain ⟨next', more, rfl, _, _⟩ := List.map_eq_cons_iff.mp hrest
      obtain ⟨hfirst, hclosed, hnext⟩ := h
      refine ⟨halong hfirst, ?_, ih (fun _ hq => by cases hq) hrest.symm hnext⟩
      rw [← foldl_scan_compact hs, hpiece, foldl_scan_compact hs, hclosed]

end RegisterColoring.Source
