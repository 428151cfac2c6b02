import RegisterColoring.SymbolTable
/-!
# Scopes and the names they declare

A list of scopes in which each one is nested in the next leads from a scope to the outermost one. A
name stands for what the first scope of that list declares under it.
-/
namespace RegisterColoring

namespace Arena
variable {α : Type}

theorem lt_size_of_get? {a : Arena α} {handle : Nat} {value : α} (h : a.get? handle = some value) :
    handle < a.size :=
  (Array.getElem?_eq_some_iff.mp h).1

theorem size_alloc (a : Arena α) (new : α) : (a.alloc new).2.size = a.size + 1 :=
  Array.size_push new

end Arena

namespace SymbolTable

theorem declaredIn?_iff (t : SymbolTable) (s : Scope) (name : String) (v : Variable) :
    t.declaredIn? s name = some v ↔
      ∃ d, t.declaration? v = some d ∧ d.scope = s ∧ d.name = name :=
  t.agree s name v

private theorem declaredIn?_of_get? {t : SymbolTable} {s : Scope} {data : ScopeData}
    (h : t.scopes.get? s.index = some data) (name : String) :
    t.declaredIn? s name = data.names.lookup name := by
  rw [declaredIn?, ScopeData.named?, h, Option.bind_some]

/-- A scope declares a name at most once. -/
theorem eq_of_declaration? {t : SymbolTable} {v w : Variable} {d e : Declaration}
    (hv : t.declaration? v = some d) (hw : t.declaration? w = some e) (hscope : d.scope = e.scope)
    (hname : d.name = e.name) : v = w := by
  have hfound := (t.declaredIn?_iff e.scope e.name v).mpr ⟨d, hv, hscope, hname⟩
  rw [(t.declaredIn?_iff e.scope e.name w).mpr ⟨e, hw, rfl, rfl⟩, Option.some.injEq] at hfound
  exact hfound.symm

theorem parent?_isSome (t : SymbolTable) (s : Scope) :
    (t.parent? s).isSome = true ↔ s.index < t.scopes.size := by
  simp [parent?, Arena.get?, Arena.size]

theorem lt_size_of_parent? {t : SymbolTable} {s : Scope} {outer : Option Scope}
    (h : t.parent? s = some outer) : s.index < t.scopes.size :=
  (t.parent?_isSome s).mp (by rw [h, Option.isSome_some])

theorem declaration_of_lookup {t : SymbolTable} {s : Scope} {name : String} {v : Variable}
    (h : t.lookup s name = .ok (some v)) : ∃ d, t.declaration? v = some d ∧ d.name = name := by
  unfold lookup at h
  generalize t.scopes.size + 1 = steps at h
  induction steps generalizing s with
  | zero => cases h
  | succ steps ih =>
    rw [lookupWithin] at h
    split at h
    · cases h
    · next data hdata =>
      split at h
      · next hfound =>
        have hdeclared : t.declaredIn? s name = some v := by
          rw [declaredIn?_of_get? hdata, hfound, Except.ok.inj h]
        obtain ⟨d, hd, _, hname⟩ := (t.declaredIn?_iff s name v).mp hdeclared
        exact ⟨d, hd, hname⟩
      · exact ih h
      · cases h

theorem name_of_lookup {t : SymbolTable} {s : Scope} {name : String} {v : Variable}
    (h : t.lookup s name = .ok (some v)) : t.name v = .ok name := by
  obtain ⟨d, hd, rfl⟩ := declaration_of_lookup h
  simp [SymbolTable.name, declaration, hd, Except.map]

theorem contains_of_lookup {t : SymbolTable} {s : Scope} {name : String} {v : Variable}
    (h : t.lookup s name = .ok (some v)) : t.contains v = true := by
  obtain ⟨d, hd, _⟩ := declaration_of_lookup h
  rw [contains, hd, Option.isSome_some]

/-- Each scope is nested in the next one, was opened after it, and the last is nested in none. -/
def Outward (t : SymbolTable) : List Scope → Prop
  | [] => False
  | [s] => t.parent? s = some none
  | s :: p :: rest => t.parent? s = some (some p) ∧ p.index < s.index ∧ Outward t (p :: rest)

namespace Outward
variable {t : SymbolTable} {s : Scope} {rest : List Scope}

theorem exists_parent (h : t.Outward (s :: rest)) : t.parent? s = some rest.head? := by
  cases rest with
  | nil => exact h
  | cons p rest => exact h.1

private theorem length_le (h : t.Outward (s :: rest)) : rest.length ≤ s.index := by
  induction rest generalizing s with
  | nil => exact Nat.zero_le _
  | cons p rest ih =>
    have hlt := h.2.1
    have hle := ih h.2.2
    rw [List.length_cons]
    omega

theorem lookupWithin (h : t.Outward (s :: rest)) (name : String) {steps : Nat}
    (hsteps : rest.length < steps) :
    t.lookupWithin name steps s =
      .ok ((s :: rest).findSome? fun scope => t.declaredIn? scope name) := by
  induction rest generalizing s steps with
  | nil =>
    obtain ⟨steps, rfl⟩ : ∃ n, steps = n + 1 := ⟨steps - 1, by omega⟩
    obtain ⟨data, hdata, hparent⟩ := Option.map_eq_some_iff.mp h.exists_parent
    rw [SymbolTable.lookupWithin, hdata, List.findSome?_cons, declaredIn?_of_get? hdata]
    simp only [hparent]
    cases data.names.lookup name <;> rfl
  | cons p rest ih =>
    obtain ⟨steps, rfl⟩ : ∃ n, steps = n + 1 := ⟨steps - 1, by omega⟩
    obtain ⟨data, hdata, hparent⟩ := Option.map_eq_some_iff.mp h.exists_parent
    rw [SymbolTable.lookupWithin, hdata, List.findSome?_cons, declaredIn?_of_get? hdata]
    simp only [hparent]
    cases data.names.lookup name with
    | some v => rfl
    | none => exact ih h.2.2 (by simpa using hsteps)

/-- A name is resolved in the scopes of the list, the first of which wins. -/
theorem lookup (h : t.Outward (s :: rest)) (name : String) :
    t.lookup s name = .ok ((s :: rest).findSome? fun scope => t.declaredIn? scope name) := by
  have hlt := lt_size_of_parent? h.exists_parent
  have hle := h.length_le
  exact h.lookupWithin name (by omega)

end Outward

/-- Every scope and every variable of `t` is in `later` what it was. -/
structure Extends (later t : SymbolTable) : Prop where
  parents : ∀ s p, t.parent? s = some p → later.parent? s = some p
  declarations : ∀ v d, t.declaration? v = some d → later.declaration? v = some d

theorem Extends.refl (t : SymbolTable) : t.Extends t := ⟨fun _ _ h => h, fun _ _ h => h⟩

theorem Extends.trans {last later t : SymbolTable} (h : last.Extends later) (h' : later.Extends t) :
    last.Extends t :=
  ⟨fun s p hp => h.parents s p (h'.parents s p hp),
    fun v d hd => h.declarations v d (h'.declarations v d hd)⟩

theorem Extends.contains {later t : SymbolTable} (h : later.Extends t) {v : Variable}
    (hv : t.contains v = true) : later.contains v = true := by
  obtain ⟨d, hd⟩ := Option.isSome_iff_exists.mp hv
  rw [SymbolTable.contains, h.declarations v d hd, Option.isSome_some]

theorem Outward.extends {later t : SymbolTable} (hext : later.Extends t) {scopes : List Scope}
    (h : t.Outward scopes) : later.Outward scopes := by
  induction scopes with
  | nil => exact h
  | cons s rest ih =>
    cases rest with
    | nil => exact hext.parents _ _ h
    | cons p rest => exact ⟨hext.parents _ _ h.1, h.2.1, ih h.2.2⟩

theorem parent?_newScope (t : SymbolTable) (parent : Option Scope) (s : Scope) :
    (t.newScope parent).2.parent? s =
      if s = (t.newScope parent).1 then some parent else t.parent? s := by
  obtain ⟨index⟩ := s
  change ((t.scopes.alloc ⟨parent, []⟩).2.get? index).map ScopeData.parent = _
  rw [Arena.get?_alloc, apply_ite (Option.map ScopeData.parent), Option.map_some]
  simp only [newScope, parent?, Scope.mk.injEq]

theorem declaredIn?_newScope (t : SymbolTable) (parent : Option Scope) (s : Scope)
    (name : String) : (t.newScope parent).2.declaredIn? s name = t.declaredIn? s name :=
  ScopeData.named?_alloc t.scopes parent s name

theorem newScope_extends (t : SymbolTable) (parent : Option Scope) :
    (t.newScope parent).2.Extends t := by
  refine ⟨?_, fun _ _ h => h⟩
  intro s p hp
  have hne : s ≠ (t.newScope parent).1 := by
    rintro rfl
    exact Nat.lt_irrefl _ (lt_size_of_parent? hp)
  rw [parent?_newScope, if_neg hne, hp]

theorem Outward.newScope {t : SymbolTable} {s : Scope} {rest : List Scope}
    (h : t.Outward (s :: rest)) :
    (t.newScope (some s)).2.Outward ((t.newScope (some s)).1 :: s :: rest) := by
  refine ⟨?_, lt_size_of_parent? h.exists_parent, h.extends (t.newScope_extends (some s))⟩
  rw [parent?_newScope, if_pos rfl]

private theorem declare_eq_ok_iff (t : SymbolTable) (s : Scope) (name : String) (type : ValueType)
    (v : Variable) (later : SymbolTable) : t.declare s name type = .ok (v, later) ↔
      ∃ (hs : s.index < t.scopes.size) (hnew : t.declaredIn? s name = none),
        v = ⟨t.size⟩ ∧ later = t.store ⟨name, type, s⟩ hs hnew := by
  unfold declare
  split
  · next hs =>
    split
    · next hnew =>
      rw [Except.ok.injEq, Prod.mk.injEq, exists_prop_of_true hs, exists_prop_of_true hnew]
      exact and_congr eq_comm eq_comm
    · next hold => simp [hold]
  · next hs => simp [hs]

/-- In a scope of the table, only a name that is taken is refused. -/
theorem declare_eq_error_iff {t : SymbolTable} {s : Scope} (hs : s.index < t.scopes.size)
    (name : String) (type : ValueType) (e : SymbolError) : t.declare s name type = .error e ↔
      e = .redeclared name ∧ (t.declaredIn? s name).isSome = true := by
  rw [declare, dif_pos hs]
  split
  · next hnew => simp [hnew]
  · next hold =>
    have htaken : (t.declaredIn? s name).isSome = true := Option.isSome_iff_ne_none.mpr hold
    simp [htaken, eq_comm]

section Declare
variable {t later : SymbolTable} {s : Scope} {name : String} {type : ValueType} {v : Variable}
  (hdeclare : t.declare s name type = .ok (v, later))
include hdeclare

theorem eq_size_of_declare : v = ⟨t.size⟩ := by
  obtain ⟨_, _, hv, _⟩ := (t.declare_eq_ok_iff s name type v later).mp hdeclare
  exact hv

theorem declaration?_declare (w : Variable) : later.declaration? w =
    if w = v then some ⟨name, type, s⟩ else t.declaration? w := by
  obtain ⟨_, _, rfl, rfl⟩ := (t.declare_eq_ok_iff s name type v later).mp hdeclare
  obtain ⟨handle⟩ := w
  simp only [declaration?, store, Arena.get?_alloc, Variable.mk.injEq, size]

theorem declaredIn?_declare (x : Scope) (other : String) : later.declaredIn? x other =
    if x = s ∧ other = name then some v else t.declaredIn? x other := by
  obtain ⟨hs, _, rfl, rfl⟩ := (t.declare_eq_ok_iff s name type v later).mp hdeclare
  exact ScopeData.named?_addName hs name ⟨t.size⟩ x other

theorem parent?_declare (x : Scope) : later.parent? x = t.parent? x := by
  obtain ⟨_, _, _, rfl⟩ := (t.declare_eq_ok_iff s name type v later).mp hdeclare
  simp only [parent?, store, Arena.get?_modify]
  split
  · rw [Option.map_map]
    rfl
  · rfl

theorem size_scopes_declare : later.scopes.size = t.scopes.size := by
  obtain ⟨_, _, _, rfl⟩ := (t.declare_eq_ok_iff s name type v later).mp hdeclare
  exact Array.size_modify

theorem size_declare : later.size = t.size + 1 := by
  obtain ⟨_, _, _, rfl⟩ := (t.declare_eq_ok_iff s name type v later).mp hdeclare
  exact t.declarations.size_alloc _

theorem declaration?_new : t.declaration? v = none := by
  rw [eq_size_of_declare hdeclare]
  exact Array.getElem?_eq_none (Nat.le_refl _)

theorem declare_extends : later.Extends t := by
  refine ⟨?_, ?_⟩
  · intro x p hp
    rw [parent?_declare hdeclare, hp]
  · intro w d hw
    have hne : w ≠ v := by
      rintro rfl
      rw [declaration?_new hdeclare] at hw
      cases hw
    rw [declaration?_declare hdeclare, if_neg hne, hw]

end Declare

def attempt (t : SymbolTable) (s : Scope) (name : String) (type : ValueType) : SymbolTable :=
  match t.declare s name type with
  | .ok (_, later) => later
  | .error _ => t

/-- A table whose scopes have these parents, after attempts to declare these variables. -/
def ofDeclarations (ds : List Declaration) (parents : List (Option Scope)) : SymbolTable :=
  ds.foldl (fun t d => t.attempt d.scope d.name d.type)
    (parents.foldl (fun t parent => (t.newScope parent).2) .empty)

end SymbolTable

end RegisterColoring
