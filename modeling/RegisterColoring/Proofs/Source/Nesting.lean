import RegisterColoring.Proofs.Source.Steps
import Mathlib.Data.List.Basic
/-!
# Which brackets are open on a line

A bracket is the inside of a function or a scope, or the whole source. It is named by the line with
which its inside begins, and it is open as long as no more brackets were closed in it than opened.
This is said of the source alone; the reader does not occur in it.
-/
namespace RegisterColoring.Source

/-- The lines from line `e` to the one before line `n`. -/
def between (src : List Line) (e n : Nat) : List Line := (src.take n).drop e

theorem between_succ {src : List Line} {e n : Nat} {l : Line} (hl : src[n]? = some l)
    (he : e ≤ n) : between src e (n + 1) = between src e n ++ [l] := by
  have hlt : n < src.length := (List.getElem?_eq_some_iff.mp hl).1
  rw [between, between, List.take_add_one, hl, List.drop_append_of_le_length]
  · rfl
  · rw [List.length_take]
    omega

private theorem between_append (src : List Line) {e m n : Nat} (hem : e ≤ m) (hmn : m ≤ n) :
    between src e n = between src e m ++ between src m n := by
  have htake : src.take m = (src.take n).take m := by rw [List.take_take, Nat.min_eq_left hmn]
  obtain ⟨k, rfl⟩ := Nat.le.dest hem
  rw [between, between, between, htake]
  generalize src.take n = before
  rw [List.drop_take, ← List.drop_drop, Nat.add_sub_cancel_left, List.take_append_drop]

private theorem countP_between_succ (p : Line → Bool) {src : List Line} {e n : Nat} {l : Line}
    (hl : src[n]? = some l) (he : e ≤ n) : (between src e (n + 1)).countP p =
      (between src e n).countP p + if p l = true then 1 else 0 := by
  rw [between_succ hl he, List.countP_append, List.countP_singleton]

@[simp] theorem between_self (src : List Line) (n : Nat) : between src n n = [] :=
  List.drop_eq_nil_of_le (List.length_take_le n src)

/-- The bracket whose inside begins with line `e` is open before line `n`. -/
structure OpenAt (src : List Line) (e n : Nat) : Prop where
  begins : e = 0 ∨ ∃ b l, e = b + 1 ∧ src[b]? = some l ∧ l.opens = true
  le : e ≤ n
  balanced : ∀ m, e ≤ m → m ≤ n →
    (between src e m).countP Line.closes ≤ (between src e m).countP Line.opens

def Innermost (src : List Line) (e n : Nat) : Prop :=
  OpenAt src e n ∧ ∀ e', OpenAt src e' n → e' ≤ e

private theorem OpenAt.of_le {src : List Line} {e e' m n : Nat} (h : OpenAt src e n)
    (h' : OpenAt src e' m) (hle : e' ≤ e) (hm : e ≤ m) : OpenAt src e' n := by
  refine ⟨h'.begins, Nat.le_trans hle h.le, fun k hk hkn => ?_⟩
  rcases Nat.le_total k e with hke | hke
  · exact h'.balanced k hk (Nat.le_trans hke hm)
  · have hinner := h.balanced k hke hkn
    have houter := h'.balanced e hle hm
    rw [between_append src hle hke, List.countP_append, List.countP_append]
    omega

private theorem openAt_succ_iff {src : List Line} {n : Nat} {l : Line} (hl : src[n]? = some l)
    (e : Nat) :
    OpenAt src e (n + 1) ↔ (OpenAt src e n ∧
        (between src e (n + 1)).countP Line.closes ≤ (between src e (n + 1)).countP Line.opens) ∨
      (e = n + 1 ∧ l.opens = true) := by
  constructor
  · intro h
    rcases Nat.lt_or_ge n e with hlt | hle
    · obtain rfl : e = n + 1 := Nat.le_antisymm h.le hlt
      rcases h.begins with h0 | ⟨b, l', hb, hl', hopens⟩
      · cases h0
      · obtain rfl := Nat.succ.inj hb
        rw [hl] at hl'
        obtain rfl := Option.some.inj hl'
        exact .inr ⟨rfl, hopens⟩
    · exact .inl ⟨⟨h.begins, hle, fun m hm hmn => h.balanced m hm (by omega)⟩,
        h.balanced (n + 1) h.le (Nat.le_refl _)⟩
  · rintro (⟨h, hlast⟩ | ⟨rfl, hopens⟩)
    · refine ⟨h.begins, Nat.le_succ_of_le h.le, fun m hm hmn => ?_⟩
      rcases Nat.lt_or_ge n m with hlt | hle
      · obtain rfl : m = n + 1 := Nat.le_antisymm hmn hlt
        exact hlast
      · exact h.balanced m hm hle
    · refine ⟨.inr ⟨n, l, rfl, hl, hopens⟩, Nat.le_refl _, fun m hm hmn => ?_⟩
      obtain rfl : m = n + 1 := Nat.le_antisymm hmn hm
      simp

/-- The brackets that are open before line `n`, the innermost first: in the bracket at position `i`
there are `i` others open. -/
structure Nesting (src : List Line) (n : Nat) (levels : List Nat) : Prop where
  mem_iff : ∀ e, e ∈ levels ↔ OpenAt src e n
  sorted : levels.Pairwise (· > ·)
  excess : ∀ i e, levels[i]? = some e →
    (between src e n).countP Line.opens = (between src e n).countP Line.closes + i

namespace Nesting
variable {src : List Line} {n : Nat} {levels : List Nat}

theorem start (src : List Line) : Nesting src 0 [0] := by
  refine ⟨fun e => ?_, by simp, ?_⟩
  · rw [List.mem_singleton]
    constructor
    · rintro rfl
      refine ⟨.inl rfl, Nat.le_refl _, fun m _ hm => ?_⟩
      obtain rfl := Nat.le_zero.mp hm
      simp
    · intro h
      exact Nat.le_zero.mp h.le
  · intro i e he
    obtain ⟨rfl, rfl⟩ : i = 0 ∧ 0 = e := by simpa [List.getElem?_cons] using he
    simp

private theorem le_of_getElem? (h : Nesting src n levels) {i e : Nat} (he : levels[i]? = some e) :
    e ≤ n :=
  ((h.mem_iff e).mp (List.mem_of_getElem? he)).le

section Step
variable {l : Line} (hl : src[n]? = some l) (h : Nesting src n levels)
include hl h

theorem stay (hopens : l.opens = false) (hcloses : l.closes = false) :
    Nesting src (n + 1) levels := by
  refine ⟨fun e => ?_, h.sorted, ?_⟩
  · rw [h.mem_iff, openAt_succ_iff hl, hopens]
    constructor
    · intro he
      have hbalanced := he.balanced n he.le (Nat.le_refl _)
      refine .inl ⟨he, ?_⟩
      rwa [countP_between_succ _ hl he.le, countP_between_succ _ hl he.le, hopens, hcloses]
    · rintro (⟨he, _⟩ | ⟨_, hfalse⟩)
      · exact he
      · cases hfalse
  · intro i e he
    have hle := h.le_of_getElem? he
    rw [countP_between_succ _ hl hle, countP_between_succ _ hl hle, hopens, hcloses,
      h.excess i e he]
    rfl

theorem push (hopens : l.opens = true) : Nesting src (n + 1) ((n + 1) :: levels) := by
  have hcloses : l.closes = false := (Line.of_opens hopens).1
  refine ⟨fun e => ?_, ?_, ?_⟩
  · rw [List.mem_cons, h.mem_iff, openAt_succ_iff hl]
    constructor
    · rintro (rfl | he)
      · exact .inr ⟨rfl, hopens⟩
      · have hbalanced := he.balanced n he.le (Nat.le_refl _)
        refine .inl ⟨he, ?_⟩
        rw [countP_between_succ _ hl he.le, countP_between_succ _ hl he.le, hopens, hcloses]
        exact Nat.le_succ_of_le hbalanced
    · rintro (⟨he, _⟩ | ⟨rfl, _⟩)
      · exact .inr he
      · exact .inl rfl
  · refine List.pairwise_cons.mpr ⟨fun e he => ?_, h.sorted⟩
    exact Nat.lt_succ_of_le ((h.mem_iff e).mp he).le
  · intro i e he
    cases i with
    | zero =>
      obtain rfl : n + 1 = e := by simpa using he
      simp
    | succ i =>
      rw [List.getElem?_cons_succ] at he
      have hle := h.le_of_getElem? he
      rw [countP_between_succ _ hl hle, countP_between_succ _ hl hle, hopens, hcloses,
        h.excess i e he]
      rfl

end Step

theorem pop {l : Line} (hl : src[n]? = some l) {top : Nat} {rest : List Nat}
    (h : Nesting src n (top :: rest)) (hcloses : l.closes = true) : Nesting src (n + 1) rest := by
  have hopens : l.opens = false := (Line.of_closes hcloses).1
  have hexcess : ∀ i e, rest[i]? = some e → (between src e (n + 1)).countP Line.opens =
      (between src e (n + 1)).countP Line.closes + i := by
    intro i e he
    have hle := h.le_of_getElem? (i := i + 1) he
    have hbefore := h.excess (i + 1) e he
    rw [countP_between_succ _ hl hle, countP_between_succ _ hl hle, hopens, hcloses, hbefore]
    simp only [Bool.false_eq_true, if_false, if_true]
    omega
  refine ⟨fun e => ?_, h.sorted.of_cons, hexcess⟩
  rw [openAt_succ_iff hl, hopens]
  constructor
  · intro he
    obtain ⟨i, hi⟩ := List.mem_iff_getElem?.mp he
    refine .inl ⟨(h.mem_iff e).mp (by simp [he]), ?_⟩
    rw [hexcess i e hi]
    exact Nat.le_add_right _ _
  · rintro (⟨he, hbalanced⟩ | ⟨_, hfalse⟩)
    · rcases List.mem_cons.mp ((h.mem_iff e).mpr he) with rfl | hrest
      · -- the innermost bracket has no other open in it, so this line closes it
        have hzero := h.excess 0 e rfl
        rw [countP_between_succ _ hl he.le, countP_between_succ _ hl he.le, hopens, hcloses,
          hzero] at hbalanced
        simp only [Bool.false_eq_true, if_false, if_true] at hbalanced
        omega
      · exact hrest
    · cases hfalse

theorem innermost {top : Nat} {rest : List Nat} (h : Nesting src n (top :: rest)) :
    Innermost src top n := by
  refine ⟨(h.mem_iff top).mp (by simp), fun e he => ?_⟩
  rcases List.mem_cons.mp ((h.mem_iff e).mpr he) with rfl | hrest
  · exact Nat.le_refl _
  · exact Nat.le_of_lt ((List.pairwise_cons.mp h.sorted).1 e hrest)

end Nesting

/-- Line `m` declares the name, and the innermost bracket around it is `e`. -/
def Declares (src : List Line) (m : Nat) (name : String) (e : Nat) : Prop :=
  (∃ type, src[m]? = some (.directive (.declare name type))) ∧ Innermost src e m

/-- On line `n` the name stands for what line `m` declares: of the brackets that are open on line `n`
and in which an earlier line declares the name, the innermost is that of line `m`. -/
def Resolves (src : List Line) (n : Nat) (name : String) (m : Nat) : Prop :=
  ∃ e, Declares src m name e ∧ m < n ∧ OpenAt src e n ∧
    ∀ m' e', Declares src m' name e' → m' < n → OpenAt src e' n → e' ≤ e

/-- A name never stands for a declaration in a bracket that has been closed. -/
theorem Resolves.openAt {src : List Line} {n m e : Nat} {name : String}
    (h : Resolves src n name m) (he : OpenAt src e m) : OpenAt src e n := by
  obtain ⟨e', ⟨_, hinner⟩, _, hopen, _⟩ := h
  exact hopen.of_le he (hinner.2 e he) hinner.1.le

def declaredBy (src : List Line) (m : Nat) : Variable :=
  ⟨(src.take m).countP Line.isDeclaration⟩

/-- The scope of a bracket. The whole source has the first one. -/
def scopeOf (src : List Line) (e : Nat) : Scope := ⟨(src.take e).countP Line.opens⟩

theorem countP_take_succ_of_pos {p : Line → Bool} {src : List Line} {n : Nat} {l : Line}
    (hl : src[n]? = some l) (hp : p l = true) :
    (src.take (n + 1)).countP p = (src.take n).countP p + 1 := by
  have hsucc := countP_between_succ p hl (Nat.zero_le n)
  rwa [if_pos hp] at hsucc

theorem countP_take_succ_of_neg {p : Line → Bool} {src : List Line} {n : Nat} {l : Line}
    (hl : src[n]? = some l) (hp : p l = false) :
    (src.take (n + 1)).countP p = (src.take n).countP p := by
  have hsucc := countP_between_succ p hl (Nat.zero_le n)
  rwa [hp] at hsucc

theorem countP_take_lt {p : Line → Bool} {src : List Line} {m n : Nat} {l : Line}
    (hl : src[m]? = some l) (hp : p l = true) (h : m < n) :
    (src.take m).countP p < (src.take n).countP p := by
  have hle : (src.take (m + 1)).countP p ≤ (src.take n).countP p :=
    (List.take_sublist_take_left h).countP_le
  rwa [countP_take_succ_of_pos hl hp] at hle

theorem eq_of_countP_take_eq {p : Line → Bool} {src : List Line} {m n : Nat} {l l' : Line}
    (hl : src[m]? = some l) (hp : p l = true) (hl' : src[n]? = some l') (hp' : p l' = true)
    (h : (src.take m).countP p = (src.take n).countP p) : m = n := by
  rcases Nat.lt_trichotomy m n with hlt | heq | hlt
  · exact (Nat.ne_of_lt (countP_take_lt hl hp hlt) h).elim
  · exact heq
  · exact (Nat.ne_of_lt (countP_take_lt hl' hp' hlt) h.symm).elim

theorem eq_of_scopeOf_eq {src : List Line} {e e' n n' : Nat} (h : OpenAt src e n)
    (h' : OpenAt src e' n') (heq : scopeOf src e = scopeOf src e') : e = e' := by
  have hcount : (src.take e).countP Line.opens = (src.take e').countP Line.opens :=
    congrArg Scope.index heq
  obtain rfl | ⟨b, l, rfl, hl, hopens⟩ := h.begins <;>
    obtain rfl | ⟨b', l', rfl, hl', hopens'⟩ := h'.begins
  · rfl
  · rw [countP_take_succ_of_pos hl' hopens', List.take_zero] at hcount
    cases hcount
  · rw [countP_take_succ_of_pos hl hopens, List.take_zero] at hcount
    cases hcount
  · rw [countP_take_succ_of_pos hl hopens, countP_take_succ_of_pos hl' hopens'] at hcount
    rw [eq_of_countP_take_eq hl hopens hl' hopens' (Nat.succ.inj hcount)]

end RegisterColoring.Source
