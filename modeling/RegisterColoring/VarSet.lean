/-!
# Sets of variables

Within one run a variable is named by a number. A set keeps its members in ascending
order, so sets with the same members are equal.
-/
namespace RegisterColoring

structure VarSet where
  toList : List Nat
  ascending : toList.Pairwise (· < ·)
deriving DecidableEq

namespace VarSet

def place (v : Nat) : List Nat → List Nat
  | [] => [v]
  | w :: ws => if v < w then v :: w :: ws else if v = w then w :: ws else w :: place v ws

private theorem mem_place {v w : Nat} {ws : List Nat} : w ∈ place v ws ↔ w = v ∨ w ∈ ws := by
  induction ws with
  | nil => simp [place]
  | cons u us ih =>
    unfold place
    split
    · simp
    · split
      · next h => subst h; simp
      · simp only [List.mem_cons, ih]
        exact or_left_comm

private theorem ascending_place {v : Nat} {ws : List Nat} (h : ws.Pairwise (· < ·)) :
    (place v ws).Pairwise (· < ·) := by
  induction ws with
  | nil => simp [place]
  | cons u us ih =>
    have hu := List.pairwise_cons.mp h
    unfold place
    split
    · next hvu =>
      refine List.pairwise_cons.mpr ⟨fun w hw => ?_, h⟩
      rcases List.mem_cons.mp hw with rfl | hw
      · exact hvu
      · exact Nat.lt_trans hvu (hu.1 w hw)
    · split
      · exact h
      · refine List.pairwise_cons.mpr ⟨fun w hw => ?_, ih hu.2⟩
        rcases mem_place.mp hw with rfl | hw
        · omega
        · exact hu.1 w hw

def empty : VarSet := ⟨[], List.Pairwise.nil⟩

instance : EmptyCollection VarSet := ⟨empty⟩

instance : Membership Nat VarSet := ⟨fun s v => v ∈ s.toList⟩

instance (v : Nat) (s : VarSet) : Decidable (v ∈ s) := inferInstanceAs (Decidable (v ∈ s.toList))

def insert (s : VarSet) (v : Nat) : VarSet := ⟨place v s.toList, ascending_place s.ascending⟩

def filter (s : VarSet) (p : Nat → Bool) : VarSet := ⟨s.toList.filter p, s.ascending.filter p⟩

def erase (s : VarSet) (v : Nat) : VarSet := s.filter fun w => w ≠ v

def union (s t : VarSet) : VarSet := t.toList.foldl insert s

def ofList (vs : List Nat) : VarSet := vs.foldl insert ∅

def unions (sets : List VarSet) : VarSet := sets.foldl union ∅

theorem mem_def {v : Nat} {s : VarSet} : v ∈ s ↔ v ∈ s.toList := Iff.rfl

@[simp] theorem not_mem_empty (v : Nat) : v ∉ (∅ : VarSet) := List.not_mem_nil

@[simp] theorem mem_insert {s : VarSet} {v w : Nat} : w ∈ s.insert v ↔ w = v ∨ w ∈ s :=
  mem_place

@[simp] theorem mem_filter {s : VarSet} {p : Nat → Bool} {v : Nat} :
    v ∈ s.filter p ↔ v ∈ s ∧ p v :=
  List.mem_filter

@[simp] theorem mem_erase {s : VarSet} {v w : Nat} : w ∈ s.erase v ↔ w ∈ s ∧ w ≠ v := by
  simp [erase]

private theorem mem_foldl_insert {vs : List Nat} {s : VarSet} {v : Nat} :
    v ∈ vs.foldl insert s ↔ v ∈ s ∨ v ∈ vs := by
  induction vs generalizing s with
  | nil => simp
  | cons w ws ih =>
    simp only [List.foldl_cons, ih, mem_insert, List.mem_cons, or_assoc]
    exact or_left_comm

@[simp] theorem mem_union {s t : VarSet} {v : Nat} : v ∈ s.union t ↔ v ∈ s ∨ v ∈ t :=
  mem_foldl_insert

@[simp] theorem mem_ofList {vs : List Nat} {v : Nat} : v ∈ ofList vs ↔ v ∈ vs := by
  simp [ofList, mem_foldl_insert]

private theorem mem_foldl_union {sets : List VarSet} {s : VarSet} {v : Nat} :
    v ∈ sets.foldl union s ↔ v ∈ s ∨ ∃ t ∈ sets, v ∈ t := by
  induction sets generalizing s with
  | nil => simp
  | cons t ts ih => simp [ih, or_assoc]

@[simp] theorem mem_unions {sets : List VarSet} {v : Nat} :
    v ∈ unions sets ↔ ∃ t ∈ sets, v ∈ t := by
  simp [unions, mem_foldl_union]

private theorem toList_eq_of_mem_iff {vs ws : List Nat} (hv : vs.Pairwise (· < ·))
    (hw : ws.Pairwise (· < ·)) (h : ∀ v, v ∈ vs ↔ v ∈ ws) : vs = ws := by
  induction vs generalizing ws with
  | nil =>
    cases ws with
    | nil => rfl
    | cons w ws => exact absurd ((h w).mpr (by simp)) (by simp)
  | cons v vs ih =>
    cases ws with
    | nil => exact absurd ((h v).mp (by simp)) (by simp)
    | cons w ws =>
      have hv' := List.pairwise_cons.mp hv
      have hw' := List.pairwise_cons.mp hw
      have hvw : v = w := by
        rcases List.mem_cons.mp ((h v).mp (by simp)) with hv0 | hv0
        · exact hv0
        · rcases List.mem_cons.mp ((h w).mpr (by simp)) with hw0 | hw0
          · exact hw0.symm
          · exact absurd (Nat.lt_trans (hv'.1 w hw0) (hw'.1 v hv0)) (Nat.lt_irrefl v)
      subst hvw
      refine congrArg (v :: ·) (ih hv'.2 hw'.2 fun u => ⟨fun hu => ?_, fun hu => ?_⟩)
      · rcases List.mem_cons.mp ((h u).mp (by simp [hu])) with rfl | hu'
        · exact absurd (hv'.1 u hu) (Nat.lt_irrefl u)
        · exact hu'
      · rcases List.mem_cons.mp ((h u).mpr (by simp [hu])) with rfl | hu'
        · exact absurd (hw'.1 u hu) (Nat.lt_irrefl u)
        · exact hu'

@[ext] theorem ext {s t : VarSet} (h : ∀ v, v ∈ s ↔ v ∈ t) : s = t := by
  obtain ⟨vs, hv⟩ := s
  obtain ⟨ws, hw⟩ := t
  have : vs = ws := toList_eq_of_mem_iff hv hw h
  subst this
  rfl

end VarSet

end RegisterColoring
