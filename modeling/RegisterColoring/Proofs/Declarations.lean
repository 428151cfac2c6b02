import RegisterColoring.Proofs.Symbols
/-!
# Histories of a symbol table

A table starts empty. Scopes are opened in it, alone or nested in earlier ones, and variables are
declared in its scopes, where a name that is taken is refused. Whatever the history, a name stands
for what the nearest scope declares under it, and a declaration is seen from no other place.
-/
namespace RegisterColoring.SymbolTable

/-- The tables that can be reached, each with the scopes that it has handed out. -/
inductive Reached : SymbolTable → List Scope → Prop
  | empty : Reached .empty []
  | newScope {t : SymbolTable} {scopes : List Scope} (h : Reached t scopes) (parent : Option Scope)
    (hparent : ∀ p ∈ parent, p ∈ scopes) :
    Reached (t.newScope parent).2 ((t.newScope parent).1 :: scopes)
  | attempt {t : SymbolTable} {scopes : List Scope} (h : Reached t scopes) {s : Scope}
    (hs : s ∈ scopes) (name : String) (type : ValueType) :
    Reached (t.attempt s name type) scopes

/-- Scopes are nested in earlier ones. -/
def Nested (t : SymbolTable) : Prop := ∀ s p, t.parent? s = some (some p) → p.index < s.index

namespace Nested

private theorem empty : Nested .empty := by
  intro s p h
  simp [SymbolTable.empty, parent?] at h

private theorem newScope {t : SymbolTable} (h : t.Nested) {parent : Option Scope}
    (hparent : ∀ p ∈ parent, p.index < t.scopes.size) : (t.newScope parent).2.Nested := by
  intro s p hp
  rw [parent?_newScope] at hp
  split at hp
  · next hnew =>
    rw [hnew]
    exact hparent p (Option.some.inj hp)
  · exact h s p hp

private theorem declare {t later : SymbolTable} (h : t.Nested) {s : Scope} {name : String}
    {type : ValueType} {v : Variable} (hdeclare : t.declare s name type = .ok (v, later)) :
    later.Nested := by
  intro x p hp
  rw [parent?_declare hdeclare] at hp
  exact h x p hp

end Nested

private theorem scope_lt_of_declaration? {t : SymbolTable} {v : Variable} {d : Declaration}
    (h : t.declaration? v = some d) : d.scope.index < t.scopes.size := by
  have hfound := (t.declaredIn?_iff d.scope d.name v).mpr ⟨d, h, rfl, rfl⟩
  obtain ⟨data, hdata, _⟩ := Option.bind_eq_some_iff.mp hfound
  exact Arena.lt_size_of_get? hdata

private theorem attempt_of_ok {t later : SymbolTable} {s : Scope} {name : String} {type : ValueType}
    {v : Variable} (h : t.declare s name type = .ok (v, later)) :
    t.attempt s name type = later := by
  rw [attempt, h]

private theorem attempt_of_error {t : SymbolTable} {s : Scope} {name : String} {type : ValueType}
    {e : SymbolError} (h : t.declare s name type = .error e) : t.attempt s name type = t := by
  rw [attempt, h]

private theorem size_scopes_attempt (t : SymbolTable) (s : Scope) (name : String)
    (type : ValueType) : (t.attempt s name type).scopes.size = t.scopes.size := by
  cases hdeclare : t.declare s name type with
  | error e => rw [attempt_of_error hdeclare]
  | ok made => rw [attempt_of_ok hdeclare, size_scopes_declare hdeclare]

namespace Reached
variable {t : SymbolTable} {scopes : List Scope}

private theorem mem_iff (h : Reached t scopes) (s : Scope) :
    s ∈ scopes ↔ s.index < t.scopes.size := by
  induction h with
  | empty => simp [SymbolTable.empty, Arena.size, Arena.empty]
  | @newScope t scopes _ parent _ ih =>
    have hsize : (t.newScope parent).2.scopes.size = t.scopes.size + 1 :=
      t.scopes.size_alloc ⟨parent, []⟩
    have hnew : (t.newScope parent).1 = ⟨t.scopes.size⟩ := rfl
    obtain ⟨index⟩ := s
    rw [hsize, hnew, List.mem_cons, ih, Nat.lt_succ_iff_lt_or_eq, or_comm, Scope.mk.injEq]
  | @attempt t scopes _ s _ name type ih => rw [ih, t.size_scopes_attempt]

private theorem nested (h : Reached t scopes) : t.Nested := by
  induction h with
  | empty => exact .empty
  | newScope h parent hparent ih =>
    exact ih.newScope fun p hp => (h.mem_iff p).mp (hparent p hp)
  | @attempt t scopes _ s _ name type ih =>
    cases hdeclare : t.declare s name type with
    | error e => exact (attempt_of_error hdeclare).symm ▸ ih
    | ok made => exact (attempt_of_ok hdeclare).symm ▸ ih.declare hdeclare

private theorem exists_parent (h : Reached t scopes) {s : Scope} (hs : s ∈ scopes) :
    ∃ outer, t.parent s = .ok outer ∧ ∀ p ∈ outer, p ∈ scopes ∧ p.index < s.index := by
  have hlt := (h.mem_iff s).mp hs
  obtain ⟨outer, houter⟩ := Option.isSome_iff_exists.mp ((t.parent?_isSome s).mpr hlt)
  refine ⟨outer, by rw [parent, houter], ?_⟩
  intro p hp
  have hindex := h.nested s p (houter.trans (congrArg some hp))
  exact ⟨(h.mem_iff p).mpr (Nat.lt_trans hindex hlt), hindex⟩

end Reached

private theorem Nested.exists_outward {t : SymbolTable} (h : t.Nested) {s : Scope}
    (hs : s.index < t.scopes.size) : ∃ rest, t.Outward (s :: rest) := by
  -- a parent was opened earlier, so the indices on the way end the walk
  induction hindex : s.index using Nat.strongRecOn generalizing s with
  | _ index ih =>
    obtain ⟨outer, houter⟩ := Option.isSome_iff_exists.mp ((t.parent?_isSome s).mpr hs)
    cases outer with
    | none => exact ⟨[], houter⟩
    | some p =>
      have hlt := h s p houter
      obtain ⟨rest, hrest⟩ := ih p.index (hindex ▸ hlt) (Nat.lt_trans hlt hs) rfl
      exact ⟨p :: rest, houter, hlt, hrest⟩

/-- From scope `inner` outwards, `s` is the first scope that declares the name. -/
def Nearest (t : SymbolTable) (name : String) (inner s : Scope) : Prop :=
  ∃ rest before after, t.Outward (inner :: rest) ∧ inner :: rest = before ++ s :: after ∧
    (∀ x ∈ before, t.declaredIn? x name = none) ∧ (t.declaredIn? s name).isSome = true

/-- The nearest scope that declares a name decides what it stands for. -/
theorem Nearest.lookup {t : SymbolTable} {name : String} {inner s : Scope}
    (h : t.Nearest name inner s) : t.lookup inner name = .ok (t.declaredIn? s name) := by
  obtain ⟨rest, before, after, hchain, hsplit, hbefore, hs⟩ := h
  obtain ⟨v, hv⟩ := Option.isSome_iff_exists.mp hs
  rw [hchain.lookup, hv, Except.ok.injEq, List.findSome?_eq_some_iff]
  exact ⟨before, s, after, hsplit, hv, hbefore⟩

private theorem nearest_of_lookup {t : SymbolTable} {name : String} {inner : Scope}
    {rest : List Scope} (hchain : t.Outward (inner :: rest)) {v : Variable}
    (h : t.lookup inner name = .ok (some v)) :
    ∃ s, t.Nearest name inner s ∧ t.declaredIn? s name = some v := by
  rw [hchain.lookup, Except.ok.injEq, List.findSome?_eq_some_iff] at h
  obtain ⟨before, s, after, hsplit, hv, hbefore⟩ := h
  exact ⟨s, ⟨rest, before, after, hchain, hsplit, hbefore, by rw [hv, Option.isSome_some]⟩, hv⟩

private theorem findSome?_eq_of_ne {α β : Type} {f g : α → Option β} {b : β}
    (h : ∀ x, f x = some b ∨ f x = g x) {l : List α} (hne : l.findSome? f ≠ some b) :
    l.findSome? f = l.findSome? g := by
  induction l with
  | nil => rfl
  | cons x l ih =>
    rw [List.findSome?_cons] at hne ⊢
    rw [List.findSome?_cons]
    rcases h x with hx | hx
    · simp [hx] at hne
    · rw [hx] at hne ⊢
      cases hg : g x with
      | some c => rfl
      | none =>
        rw [hg] at hne
        exact ih hne

section Declare
variable {t later : SymbolTable} {s : Scope} {name : String} {type : ValueType} {v : Variable}
  (hdeclare : t.declare s name type = .ok (v, later))
include hdeclare

private theorem lookup_ne_new (inner : Scope) (other : String) :
    t.lookup inner other ≠ .ok (some v) := by
  intro hfound
  obtain ⟨d, hd, _⟩ := declaration_of_lookup hfound
  rw [declaration?_new hdeclare] at hd
  cases hd

private theorem lookup_of_nearest {inner : Scope} (hnearest : later.Nearest name inner s) :
    later.lookup inner name = .ok (some v) := by
  rw [hnearest.lookup, declaredIn?_declare hdeclare, if_pos ⟨rfl, rfl⟩]

private theorem nearest_of_lookup_ne {inner : Scope} {rest : List Scope}
    (hchain : t.Outward (inner :: rest)) {other : String}
    (hne : later.lookup inner other ≠ t.lookup inner other) :
    other = name ∧ later.Nearest name inner s := by
  have hchain' := hchain.extends (declare_extends hdeclare)
  have hdeclared := declaredIn?_declare hdeclare
  have hfound : later.lookup inner other = .ok (some v) := by
    apply Classical.byContradiction
    intro hother
    apply hne
    rw [hchain'.lookup, Except.ok.injEq] at hother
    rw [hchain'.lookup, hchain.lookup, Except.ok.injEq]
    apply findSome?_eq_of_ne ?_ hother
    intro x
    rw [hdeclared]
    split
    · exact .inl rfl
    · exact .inr rfl
  obtain ⟨x, hnearest, hx⟩ := nearest_of_lookup hchain' hfound
  rw [hdeclared] at hx
  split at hx
  · next hnew =>
    obtain ⟨rfl, rfl⟩ := hnew
    exact ⟨rfl, hnearest⟩
  · obtain ⟨d, hd, _⟩ := (t.declaredIn?_iff x other v).mp hx
    rw [declaration?_new hdeclare] at hd
    cases hd

end Declare

/-- `later` is `t` with the declaration of a new variable, which its scope has under its name. -/
structure Stored (t later : SymbolTable) (v : Variable) (d : Declaration) : Prop where
  handle_eq : v.handle = t.size
  size_eq : later.size = t.size + 1
  declaration : later.declaration? v = some d
  named : later.declaredIn? d.scope d.name = some v
  declarations : ∀ w e, t.declaration? w = some e → later.declaration? w = some e
  names : ∀ x other, ¬ (x = d.scope ∧ other = d.name) →
    later.declaredIn? x other = t.declaredIn? x other
  parents : ∀ x, later.parent x = t.parent x

/-- `later` is `t` with a new scope, which declares nothing. -/
structure Opened (t later : SymbolTable) (s : Scope) (parent : Option Scope) : Prop where
  parent_eq : later.parent s = .ok parent
  unnamed : ∀ name, later.declaredIn? s name = none
  declarations : ∀ v, later.declaration? v = t.declaration? v
  parents : ∀ x, x ≠ s → later.parent x = t.parent x
  names : ∀ x name, later.declaredIn? x name = t.declaredIn? x name

private theorem stored_declare {t later : SymbolTable} {s : Scope} {name : String}
    {type : ValueType} {v : Variable} (h : t.declare s name type = .ok (v, later)) :
    t.Stored later v ⟨name, type, s⟩ where
  handle_eq := by rw [eq_size_of_declare h]
  size_eq := size_declare h
  declaration := by rw [declaration?_declare h, if_pos rfl]
  named := by rw [declaredIn?_declare h, if_pos ⟨rfl, rfl⟩]
  declarations := (declare_extends h).declarations
  names x other hother := by rw [declaredIn?_declare h, if_neg hother]
  parents x := by rw [parent, parent?_declare h, parent]

private theorem opened_newScope (t : SymbolTable) (parent : Option Scope) :
    t.Opened (t.newScope parent).2 (t.newScope parent).1 parent where
  parent_eq := by rw [SymbolTable.parent, parent?_newScope, if_pos rfl]
  unnamed name := by
    have hnone : t.scopes.get? t.scopes.size = none := Array.getElem?_eq_none (Nat.le_refl _)
    rw [declaredIn?_newScope, declaredIn?, ScopeData.named?]
    change (t.scopes.get? t.scopes.size).bind _ = none
    rw [hnone, Option.bind_none]
  declarations _ := rfl
  parents x hx := by rw [SymbolTable.parent, parent?_newScope, if_neg hx, SymbolTable.parent]
  names := t.declaredIn?_newScope parent

/-- The laws of a table with any history. Parents were opened before their children, so the scopes
around a scope are a finite list, in which the first one to declare a name decides what the name
stands for. A scope has a variable under a name just if the variable was declared there as that. A
declaration is refused just if the scope has the name already, and then the table stays. Else the
next variable is stored with its name, and a lookup changes just where the declaring scope is the
nearest for the name. -/
theorem Reached.declaration_laws {t : SymbolTable} {scopes : List Scope} (h : Reached t scopes) :
    (∀ s ∈ scopes, ∃ outer, t.parent s = .ok outer ∧
      ∀ p ∈ outer, p ∈ scopes ∧ p.index < s.index) ∧
    (∀ s ∈ scopes, ∃ rest, t.Outward (s :: rest) ∧ ∀ name,
      t.lookup s name = .ok ((s :: rest).findSome? fun x => t.declaredIn? x name) ∧
      ∀ steps, rest.length < steps → t.lookupWithin name steps s = t.lookup s name) ∧
    (∀ s name v, t.declaredIn? s name = some v ↔
      ∃ d, t.declaration? v = some d ∧ d.scope = s ∧ d.name = name) ∧
    (∀ v d, t.declaration? v = some d → d.scope ∈ scopes ∧
      ∀ w, t.declaredIn? d.scope d.name = some w ↔ w = v) ∧
    (∀ parent, (t.newScope parent).1 ∉ scopes ∧
      t.Opened (t.newScope parent).2 (t.newScope parent).1 parent) ∧
    ∀ s ∈ scopes, ∀ name type,
      (t.declare s name type = .error (.redeclared name) ↔
        ∃ v d, t.declaration? v = some d ∧ d.scope = s ∧ d.name = name) ∧
      (∀ e, t.declare s name type = .error e →
        e = .redeclared name ∧ t.attempt s name type = t) ∧
      ∀ v later, t.declare s name type = .ok (v, later) →
        t.Stored later v ⟨name, type, s⟩ ∧ t.attempt s name type = later ∧
        ∀ inner ∈ scopes, ∀ other,
          (later.lookup inner other ≠ t.lookup inner other ↔
            other = name ∧ later.Nearest name inner s) ∧
          (later.Nearest name inner s → later.lookup inner name = .ok (some v)) := by
  have hchains : ∀ s ∈ scopes, ∃ rest, t.Outward (s :: rest) :=
    fun s hs => h.nested.exists_outward ((h.mem_iff s).mp hs)
  refine ⟨fun s => h.exists_parent, ?_, t.declaredIn?_iff, ?_, ?_, ?_⟩
  · intro s hs
    obtain ⟨rest, hchain⟩ := hchains s hs
    refine ⟨rest, hchain, fun name => ⟨hchain.lookup name, ?_⟩⟩
    intro steps hsteps
    rw [hchain.lookupWithin name hsteps, hchain.lookup]
  · intro v d hd
    refine ⟨(h.mem_iff d.scope).mpr (scope_lt_of_declaration? hd), ?_⟩
    intro w
    rw [t.declaredIn?_iff]
    constructor
    · rintro ⟨e, he, hscope, hname⟩
      exact eq_of_declaration? he hd hscope hname
    · rintro rfl
      exact ⟨d, hd, rfl, rfl⟩
  · intro parent
    refine ⟨?_, t.opened_newScope parent⟩
    rw [h.mem_iff]
    exact Nat.lt_irrefl _
  · intro s hs name type
    have herror := declare_eq_error_iff ((h.mem_iff s).mp hs) name type
    refine ⟨?_, ?_, ?_⟩
    · rw [herror, Option.isSome_iff_exists]
      simp only [true_and, t.declaredIn?_iff]
    · intro e he
      exact ⟨((herror e).mp he).1, attempt_of_error he⟩
    · intro v later hdeclare
      refine ⟨stored_declare hdeclare, attempt_of_ok hdeclare, ?_⟩
      intro inner hinner other
      obtain ⟨rest, hchain⟩ := hchains inner hinner
      have hnew : later.Nearest name inner s → later.lookup inner name = .ok (some v) :=
        lookup_of_nearest hdeclare
      refine ⟨⟨nearest_of_lookup_ne hdeclare hchain, ?_⟩, hnew⟩
      rintro ⟨rfl, hnearest⟩
      rw [hnew hnearest]
      exact (lookup_ne_new hdeclare inner other).symm

def shadowable : SymbolTable := .ofDeclarations [⟨"x", .int, ⟨0⟩⟩] [none, some ⟨0⟩]

private theorem reached_shadowable : Reached shadowable [⟨1⟩, ⟨0⟩] := by
  have houter : Reached _ [⟨0⟩] := .newScope .empty none (by simp)
  have hscopes : Reached _ [⟨1⟩, ⟨0⟩] := .newScope houter (some ⟨0⟩) (by simp)
  exact hscopes.attempt (s := ⟨0⟩) (by simp) "x" .int

/-- The name is refused where it stands. The scope within may declare it, and sees its own from
then on; the scope around it sees what it saw. -/
theorem shadowable_declaration_laws :
    shadowable.declare ⟨0⟩ "x" .bool = .error (.redeclared "x") ∧
    ∃ later, shadowable.declare ⟨1⟩ "x" .double = .ok (⟨1⟩, later) ∧
      later.declaration? ⟨1⟩ = some ⟨"x", .double, ⟨1⟩⟩ ∧ later.declaredIn? ⟨1⟩ "x" = some ⟨1⟩ ∧
      shadowable.lookup ⟨1⟩ "x" = .ok (some ⟨0⟩) ∧ later.lookup ⟨1⟩ "x" = .ok (some ⟨1⟩) ∧
      later.lookup ⟨0⟩ "x" = shadowable.lookup ⟨0⟩ "x" := by
  obtain ⟨_, _, _, _, _, hdeclares⟩ := reached_shadowable.declaration_laws
  obtain ⟨later, hdeclare⟩ : ∃ later, shadowable.declare ⟨1⟩ "x" .double = .ok (⟨1⟩, later) :=
    ⟨_, rfl⟩
  obtain ⟨hstored, _, hframe⟩ := (hdeclares ⟨1⟩ (by simp) "x" .double).2.2 _ _ hdeclare
  have hdeclared := declaredIn?_declare hdeclare
  have hchain : shadowable.Outward [⟨1⟩, ⟨0⟩] := ⟨rfl, by decide, rfl⟩
  have hchain' := hchain.extends (declare_extends hdeclare)
  refine ⟨(hdeclares ⟨0⟩ (by simp) "x" .bool).1.mpr ⟨⟨0⟩, _, rfl, rfl, rfl⟩, later, hdeclare,
    hstored.declaration, hstored.named, rfl, ?_, ?_⟩
  · apply (hframe ⟨1⟩ (by simp) "x").2
    exact ⟨[⟨0⟩], [], [⟨0⟩], hchain', rfl, by simp, by simp [hdeclared]⟩
  · rw [hchain.2.2.lookup, hchain'.2.2.lookup]
    simp [hdeclared]

end RegisterColoring.SymbolTable
