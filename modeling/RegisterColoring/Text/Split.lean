import RegisterColoring.Text.Basic

namespace RegisterColoring.Text

/-- Cut at the first character with property `p`, which is dropped. -/
def cut (p : Char → Bool) : List Char → Option (List Char × List Char)
  | [] => none
  | c :: cs => if p c then some ([], cs) else (cut p cs).map fun r => (c :: r.1, r.2)

def consHead (c : Char) : List (List Char) → List (List Char)
  | [] => [[c]]
  | piece :: pieces => (c :: piece) :: pieces

/-- Cut at every character with property `p`. There is always at least one piece. -/
def pieces (p : Char → Bool) : List Char → List (List Char)
  | [] => [[]]
  | c :: cs => if p c then [] :: pieces p cs else consHead c (pieces p cs)

def dropEndWhile (p : Char → Bool) (cs : List Char) : List Char :=
  (cs.reverse.dropWhile p).reverse

def trim (cs : List Char) : List Char :=
  dropEndWhile isBlank (cs.dropWhile isBlank)

def dropLast? (c : Char) (cs : List Char) : Option (List Char) :=
  if cs.getLast? = some c then some cs.dropLast else none

def words (cs : List Char) : List (List Char) :=
  (pieces isBlank cs).filter fun w => !w.isEmpty

/-- The lines of a text. A line ends in a line feed, before which one carriage
return is dropped; a last line without a line feed counts when it is not empty. -/
def lines (cs : List Char) : List (List Char) :=
  let parts := pieces (· == '\n') cs
  let ended := parts.dropLast.map fun l => (dropLast? '\r' l).getD l
  ended ++ parts.getLast?.toList.filter fun l => !l.isEmpty

theorem cut_eq_some {p : Char → Bool} {cs before after : List Char}
    (h : cut p cs = some (before, after)) :
    ∃ c, p c ∧ cs = before ++ c :: after := by
  induction cs generalizing before with
  | nil => simp [cut] at h
  | cons c cs ih =>
    by_cases hc : p c
    · simp only [cut, hc, if_true, Option.some.injEq, Prod.mk.injEq] at h
      obtain ⟨rfl, rfl⟩ := h
      exact ⟨c, hc, rfl⟩
    · simp only [cut, hc, Bool.false_eq_true, if_false, Option.map_eq_some_iff] at h
      obtain ⟨⟨front, rest⟩, hcut, heq⟩ := h
      simp only [Prod.mk.injEq] at heq
      obtain ⟨rfl, rfl⟩ := heq
      obtain ⟨d, hd, rfl⟩ := ih hcut
      exact ⟨d, hd, rfl⟩

private theorem length_dropEndWhile_le (p : Char → Bool) (cs : List Char) :
    (dropEndWhile p cs).length ≤ cs.length := by
  simpa [dropEndWhile] using (List.dropWhile_sublist p (l := cs.reverse)).length_le

theorem length_trim_le (cs : List Char) : (trim cs).length ≤ cs.length :=
  Nat.le_trans (length_dropEndWhile_le _ _) (List.dropWhile_sublist isBlank).length_le

theorem length_of_dropLast? {c : Char} {cs front : List Char} (h : dropLast? c cs = some front) :
    front.length ≤ cs.length := by
  unfold dropLast? at h
  split at h
  · simp only [Option.some.injEq] at h
    simp [← h]
  · simp at h

end RegisterColoring.Text
