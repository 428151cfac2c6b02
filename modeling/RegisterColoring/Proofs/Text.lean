import RegisterColoring.Text.Basic
import RegisterColoring.Text.Split
import Mathlib.Data.List.DropRight

namespace RegisterColoring.Text

theorem cut_append {p : Char → Bool} {before : List Char} {c : Char}
    (hbefore : ∀ x ∈ before, p x = false) (hc : p c = true) (after : List Char) :
    cut p (before ++ c :: after) = some (before, after) := by
  induction before with
  | nil => simp [cut, hc]
  | cons x before ih =>
    have hx := hbefore x (by simp)
    rw [List.cons_append, cut, hx, ih fun y hy => hbefore y (by simp [hy])]
    rfl

theorem cut_eq_none {p : Char → Bool} {cs : List Char} (h : ∀ x ∈ cs, p x = false) :
    cut p cs = none := by
  induction cs with
  | nil => rfl
  | cons x cs ih =>
    rw [cut, h x (by simp), ih fun y hy => h y (by simp [hy])]
    rfl

theorem dropLast?_concat (c : Char) (cs : List Char) : dropLast? c (cs ++ [c]) = some cs := by
  simp [dropLast?]

theorem dropLast?_eq_some {c : Char} {cs front : List Char} (h : dropLast? c cs = some front) :
    cs = front ++ [c] := by
  unfold dropLast? at h
  split at h
  · next hlast =>
    obtain ⟨ys, rfl⟩ := List.getLast?_eq_some_iff.mp hlast
    simpa using Option.some.inj h
  · cases h

theorem dropEndWhile_append {p : Char → Bool} {front back : List Char}
    (hfront : ∀ c ∈ front, p c = false) (hback : ∀ c ∈ back, p c = true) :
    dropEndWhile p (front ++ back) = front := by
  rw [dropEndWhile, List.reverse_append, List.dropWhile_append_of_pos (by simpa using hback)]
  refine (List.rdropWhile_eq_self_iff (p := p)).mpr fun hne => ?_
  rw [hfront _ (List.getLast_mem hne)]
  exact Bool.false_ne_true

/-- The text neither begins nor ends with a blank. -/
def Trimmed (cs : List Char) : Prop :=
  (∀ c ∈ cs.head?, isBlank c = false) ∧ ∀ c ∈ cs.getLast?, isBlank c = false

theorem Trimmed.trim_eq {cs : List Char} (h : Trimmed cs) : trim cs = cs := by
  obtain ⟨hfirst, hlast⟩ := h
  cases cs with
  | nil => rfl
  | cons c cs =>
    have hc : isBlank c = false := hfirst c (by simp)
    rw [trim, List.dropWhile_cons_of_neg (by simp [hc])]
    change (c :: cs).rdropWhile isBlank = c :: cs
    rw [List.rdropWhile_eq_self_iff]
    intro hne
    simpa using hlast _ (List.getLast?_eq_some_getLast hne)

theorem exists_append_trim (cs : List Char) : ∃ before after, cs = before ++ trim cs ++ after ∧
    (∀ c ∈ before, isBlank c = true) ∧ ∀ c ∈ after, isBlank c = true := by
  let rest := cs.dropWhile isBlank
  have hrest : trim cs ++ rest.rtakeWhile isBlank = rest := List.rdropWhile_append_rtakeWhile
  refine ⟨cs.takeWhile isBlank, rest.rtakeWhile isBlank, ?_, ?_, ?_⟩
  · rw [List.append_assoc, hrest, List.takeWhile_append_dropWhile]
  · intro c hc
    exact List.mem_takeWhile_imp hc
  · intro c hc
    exact List.mem_rtakeWhile_imp hc

theorem exists_append_of_cut {cs first rest : List Char} (h : cut isBlank cs = some (first, rest)) :
    ∃ before after, cs = first ++ before ++ (trim rest ++ after) ∧
      ∀ c ∈ before, isBlank c = true := by
  obtain ⟨c, hc, rfl⟩ := cut_eq_some h
  obtain ⟨before, after, hrest, hbefore, _⟩ := exists_append_trim rest
  refine ⟨c :: before, after, ?_, ?_⟩
  · conv_lhs => rw [hrest]
    simp
  · simpa using ⟨hc, hbefore⟩

theorem trimmed_trim (cs : List Char) : Trimmed (trim cs) := by
  refine ⟨?_, ?_⟩
  · intro c hc
    obtain ⟨tail, htail⟩ : trim cs <+: cs.dropWhile isBlank := List.rdropWhile_prefix _ _
    have hhead : (cs.dropWhile isBlank).head? = some c := by
      rw [← htail, List.head?_append, hc, Option.some_or]
    have hnot := List.head?_dropWhile_not isBlank cs
    rw [hhead] at hnot
    exact hnot
  · intro c hc
    have hne : trim cs ≠ [] := by
      intro he
      rw [he] at hc
      cases hc
    have hlast : (trim cs).getLast hne = c := (List.getLast_eq_iff_getLast?_eq_some hne).mpr hc
    have hnot : ¬ isBlank ((trim cs).getLast hne) = true := List.rdropWhile_last_not _ _ hne
    rw [hlast, Bool.not_eq_true] at hnot
    exact hnot

theorem trimmed_of_forall {cs : List Char} (h : ∀ c ∈ cs, isBlank c = false) : Trimmed cs :=
  ⟨fun c hc => h c (List.mem_of_mem_head? hc), fun c hc => h c (List.mem_of_mem_getLast? hc)⟩

theorem trimmed_singleton {c : Char} (hc : isBlank c = false) : Trimmed [c] :=
  trimmed_of_forall fun _ hd => List.mem_singleton.mp hd ▸ hc

theorem Trimmed.append {first last : List Char} (hfirst : Trimmed first) (hlast : Trimmed last)
    (hfirst' : first ≠ []) (hlast' : last ≠ []) (middle : List Char) :
    Trimmed (first ++ (middle ++ last)) := by
  refine ⟨?_, ?_⟩
  · rw [List.head?_append_of_ne_nil _ hfirst']
    exact hfirst.1
  · rw [List.getLast?_append_of_ne_nil _ (by simp [hlast']),
      List.getLast?_append_of_ne_nil _ hlast']
    exact hlast.2

theorem toNat_of_isAlpha {c : Char} (h : c.isAlpha = true) : 0x41 ≤ c.toNat ∧ c.toNat < 0x80 := by
  rcases (Bool.or_eq_true _ _).mp h with hupper | hlower
  · obtain ⟨hlo, hhi⟩ : 'A'.val ≤ c.val ∧ c.val ≤ 'Z'.val := of_decide_eq_true hupper
    rw [UInt32.le_iff_toNat_le] at hlo hhi
    exact ⟨hlo, Nat.lt_of_le_of_lt hhi (by decide)⟩
  · obtain ⟨hlo, hhi⟩ := (Bool.and_eq_true _ _).mp hlower
    have hlo : 'a'.val ≤ c.val := of_decide_eq_true hlo
    have hhi : c.val ≤ 'z'.val := of_decide_eq_true hhi
    rw [UInt32.le_iff_toNat_le] at hlo hhi
    exact ⟨Nat.le_trans (by decide) hlo, Nat.lt_of_le_of_lt hhi (by decide)⟩

theorem toNat_of_isDigit {c : Char} (h : c.isDigit = true) : 0x30 ≤ c.toNat ∧ c.toNat ≤ 0x39 := by
  obtain ⟨hlo, hhi⟩ := (Bool.and_eq_true _ _).mp h
  have hlo : '0'.val ≤ c.val := of_decide_eq_true hlo
  have hhi : c.val ≤ '9'.val := of_decide_eq_true hhi
  rw [UInt32.le_iff_toNat_le] at hlo hhi
  exact ⟨hlo, hhi⟩

private theorem toNat_of_isIdentifierRest {c : Char} (h : isIdentifierRest c = true) :
    0x30 ≤ c.toNat ∧ c.toNat < 0x80 := by
  rcases (Bool.or_eq_true _ _).mp h with halphanum | hunderscore
  · rcases (Bool.or_eq_true _ _).mp halphanum with halpha | hdigit
    · have hrange := toNat_of_isAlpha halpha
      omega
    · have hrange := toNat_of_isDigit hdigit
      omega
  · rw [beq_iff_eq.mp hunderscore]
    decide

theorem isBlank_of_isIdentifierRest {c : Char} (h : isIdentifierRest c = true) :
    isBlank c = false := by
  obtain ⟨hlo, hhi⟩ := toNat_of_isIdentifierRest h
  have hranges : ∀ r ∈ blankRanges, r.2 < 0x30 ∨ 0x80 ≤ r.1 := by decide
  rw [isBlank, List.any_eq_false]
  intro r hr
  have hr' := hranges r hr
  simp only [Bool.and_eq_true, decide_eq_true_eq]
  omega

theorem isIdentifierRest_of_mem {name : List Char} (h : isIdentifier name = true) {c : Char}
    (hc : c ∈ name) : isIdentifierRest c = true := by
  cases name with
  | nil => cases hc
  | cons first rest =>
    simp only [isIdentifier, Bool.and_eq_true, List.all_eq_true] at h
    rcases List.mem_cons.mp hc with rfl | hc
    · have hfirst := h.1
      simp only [isIdentifierRest, Char.isAlphanum, Bool.or_eq_true] at hfirst ⊢
      exact hfirst.imp_left Or.inl
    · exact h.2 c hc

theorem trimmed_of_isIdentifier {name : List Char} (h : isIdentifier name = true) : Trimmed name :=
  trimmed_of_forall fun _ hc => isBlank_of_isIdentifierRest (isIdentifierRest_of_mem h hc)

theorem ne_nil_of_isIdentifier {name : List Char} (h : isIdentifier name = true) : name ≠ [] := by
  rintro rfl
  cases h

end RegisterColoring.Text
