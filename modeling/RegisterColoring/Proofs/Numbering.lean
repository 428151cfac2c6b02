import RegisterColoring.Numbering
import Mathlib.Data.List.Induction
import Mathlib.Data.List.Nodup

namespace RegisterColoring.Numbering

/-- Every identifier of `n` names the same variable in `later`. -/
def Extends (later n : Numbering) : Prop :=
  ∀ id v, n.var? id = some v → later.var? id = some v

theorem Extends.refl (n : Numbering) : n.Extends n := fun _ _ h => h

theorem Extends.trans {n m k : Numbering} (hm : k.Extends m) (hn : m.Extends n) : k.Extends n :=
  fun id v h => hm id v (hn id v h)

theorem var?_lt_size {n : Numbering} {id : Nat} {v : Variable} (h : n.var? id = some v) :
    id < n.size :=
  (Array.getElem?_eq_some_iff.mp h).1

theorem getElem?_toList (n : Numbering) (id : Nat) : n.toList[id]? = n.var? id :=
  Array.getElem?_toList

theorem var?_inj {n : Numbering} (hn : n.toList.Nodup) {id id' : Nat} {v : Variable}
    (h : n.var? id = some v) (h' : n.var? id' = some v) : id = id' := by
  have hlt : id < n.toList.length := by simpa [toList, size] using var?_lt_size h
  apply (List.getElem?_inj hlt hn).mp
  rw [getElem?_toList, getElem?_toList, h, h']

theorem id?_eq (n : Numbering) (v : Variable) : n.id? v = n.toList.idxOf? v := by
  rw [id?, ← n.vars.toArray_toList, List.idxOf?_toArray]
  rfl

private theorem var?_of_id? {n : Numbering} {v : Variable} {id : Nat} (h : n.id? v = some id) :
    n.var? id = some v := by
  rw [id?_eq] at h
  obtain ⟨hlt, he, _⟩ := List.idxOf?_eq_some_iff.mp h
  rw [← getElem?_toList, List.getElem?_eq_getElem hlt, he]

theorem id?_of_var? {n : Numbering} (hn : n.toList.Nodup) {v : Variable} {id : Nat}
    (h : n.var? id = some v) : n.id? v = some id := by
  cases hv : n.id? v with
  | some id' => rw [var?_inj hn (var?_of_id? hv) h]
  | none =>
    rw [id?, Array.idxOf?_eq_none_iff] at hv
    exact absurd (Array.mem_of_getElem? h) hv

theorem id?_eq_some_iff {n : Numbering} (hn : n.toList.Nodup) (v : Variable) (id : Nat) :
    n.id? v = some id ↔ n.var? id = some v :=
  ⟨var?_of_id?, id?_of_var? hn⟩

private theorem not_mem_of_id? {n : Numbering} {v : Variable} (h : n.id? v = none) :
    v ∉ n.toList := by
  rw [id?, Array.idxOf?_eq_none_iff] at h
  simpa [toList] using h

/-- Numbering a variable gives it an identifier, keeps all others and numbers nothing twice. -/
theorem intern_spec (n : Numbering) (v : Variable) :
    (n.intern v).2.var? (n.intern v).1 = some v ∧ (n.intern v).2.Extends n ∧
      (n.toList.Nodup → (n.intern v).2.toList.Nodup) := by
  unfold intern
  split
  · next id h => exact ⟨var?_of_id? h, .refl n, fun hn => hn⟩
  · next h =>
    refine ⟨by simp [var?, size], fun id w hw => ?_, fun hn => ?_⟩
    · have hlt := var?_lt_size hw
      rw [var?, Array.getElem?_push_lt hlt]
      rw [var?, Array.getElem?_eq_getElem hlt] at hw
      exact hw
    · have hv : v ∉ n.toList := not_mem_of_id? h
      change (n.vars.push v).toList.Nodup
      rw [Array.toList_push]
      exact List.nodup_append.mpr ⟨hn, List.nodup_singleton v, by
        intro a ha b hb hab
        rw [List.mem_singleton] at hb
        exact hv (hb ▸ hab ▸ ha)⟩

private theorem toList_intern (n : Numbering) (v : Variable) :
    (n.intern v).2.toList = if v ∈ n.toList then n.toList else n.toList ++ [v] := by
  unfold intern
  split
  · next id h =>
    have hv : v ∈ n.toList := List.mem_of_getElem? ((n.getElem?_toList id).trans (var?_of_id? h))
    rw [if_pos hv]
  · next h =>
    rw [if_neg (not_mem_of_id? h)]
    exact Array.toList_push

def internAll (n : Numbering) (vs : List Variable) : Numbering :=
  vs.foldl (fun n v => (n.intern v).2) n

theorem internAll_append (n : Numbering) (vs ws : List Variable) :
    n.internAll (vs ++ ws) = (n.internAll vs).internAll ws :=
  List.foldl_append

/-- Variables are numbered in the order of their first occurrence. -/
theorem toList_internAll_empty (vs : List Variable) :
    (empty.internAll vs).toList = vs.eraseDups := by
  induction vs using List.reverseRecOn with
  | nil => rfl
  | append_singleton vs v ih =>
    have hlast : (empty.internAll (vs ++ [v])).toList =
        ((empty.internAll vs).intern v).2.toList := by rw [internAll_append]; rfl
    rw [hlast, toList_intern, ih, List.eraseDups_append]
    by_cases hv : v ∈ vs <;> simp [hv, List.removeAll, List.eraseDups_cons]

end RegisterColoring.Numbering
