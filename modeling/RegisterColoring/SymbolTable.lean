import RegisterColoring.Arena
import RegisterColoring.Fault
import RegisterColoring.ValueType
/-!
# Symbol tables

All variables of a program stand in one table. A variable is its declaration, not
its spelling: a name may be declared again in a nested scope, where it shadows the
outer one.
-/
namespace RegisterColoring

/-- A declared variable, named by the number of declarations before it. -/
structure Variable where
  handle : Nat
deriving DecidableEq

/-- A lexical scope, named by the number of scopes opened before it. -/
structure Scope where
  index : Nat
deriving DecidableEq

structure Declaration where
  name : String
  type : ValueType
  scope : Scope

/-- What a scope holds: the scope it is nested in, and the names that it declares. -/
structure ScopeData where
  parent : Option Scope
  names : List (String × Variable)

/-- The variable that one of the scopes has under a name. -/
def ScopeData.named? (scopes : Arena ScopeData) (s : Scope) (name : String) : Option Variable :=
  (scopes.get? s.index).bind fun data => data.names.lookup name

/-- A scope has a variable under a name exactly if the variable was declared there as that. -/
def ScopeData.Agree (declarations : Arena Declaration) (scopes : Arena ScopeData) : Prop :=
  ∀ s name v, named? scopes s name = some v ↔
    ∃ d, declarations.get? v.handle = some d ∧ d.scope = s ∧ d.name = name

/-- The declarations in order, and the scopes with the names of these declarations. -/
structure SymbolTable where
  declarations : Arena Declaration
  scopes : Arena ScopeData
  agree : ScopeData.Agree declarations scopes

inductive SymbolError
  | unknownType (text : String)
  | redeclared (name : String)
  | fault (cause : Fault)
deriving DecidableEq

def SymbolError.message : SymbolError → String
  | .unknownType text => "unknown type expression: " ++ Text.quote text
  | .redeclared name => "`" ++ name ++ "` is already declared in this scope"
  | .fault cause => cause.message

namespace ScopeData

def addName (data : ScopeData) (name : String) (v : Variable) : ScopeData :=
  { data with names := (name, v) :: data.names }

theorem named?_alloc (scopes : Arena ScopeData) (parent : Option Scope) (s : Scope)
    (name : String) : named? (scopes.alloc ⟨parent, []⟩).2 s name = named? scopes s name := by
  rw [named?, named?, Arena.get?_alloc]
  split
  · next hnew =>
    have hnone : scopes.get? s.index = none := Array.getElem?_eq_none (Nat.le_of_eq hnew.symm)
    rw [hnone]
    rfl
  · rfl

theorem named?_addName {scopes : Arena ScopeData} {s : Scope} (hs : s.index < scopes.size)
    (name : String) (v : Variable) (s' : Scope) (name' : String) :
    named? (scopes.modify s.index (·.addName name v)) s' name' =
      if s' = s ∧ name' = name then some v else named? scopes s' name' := by
  obtain ⟨index⟩ := s
  obtain ⟨index'⟩ := s'
  rw [named?, Arena.get?_modify]
  by_cases hindex : index = index'
  · subst hindex
    have hget : scopes.get? index = some scopes.items[index] := Array.getElem?_eq_getElem hs
    by_cases hname : name' = name
    · simp [hget, hname, addName]
    · simp [named?, hget, hname, addName, List.lookup_cons, beq_false_of_ne hname]
  · simp [named?, hindex, Ne.symm hindex]

namespace Agree
variable {declarations : Arena Declaration} {scopes : Arena ScopeData}

theorem empty : Agree .empty .empty := by
  intro s name v
  simp [named?]

private theorem newScope (h : Agree declarations scopes) (parent : Option Scope) :
    Agree declarations (scopes.alloc ⟨parent, []⟩).2 := by
  intro s name v
  rw [named?_alloc]
  exact h s name v

private theorem declare (h : Agree declarations scopes) {d : Declaration}
    (hs : d.scope.index < scopes.size) (hnew : named? scopes d.scope d.name = none) :
    Agree (declarations.alloc d).2
      (scopes.modify d.scope.index (·.addName d.name ⟨declarations.size⟩)) := by
  intro s name v
  have hold : ∀ e, declarations.get? v.handle = some e → v.handle ≠ declarations.size :=
    fun e he => Nat.ne_of_lt (Array.getElem?_eq_some_iff.mp he).1
  rw [named?_addName hs, Arena.get?_alloc]
  split
  · next hsame =>
    obtain ⟨rfl, rfl⟩ := hsame
    constructor
    · intro hv
      obtain rfl := Option.some.inj hv
      exact ⟨d, if_pos rfl, rfl, rfl⟩
    · rintro ⟨e, he, hscope, hname⟩
      split at he
      · next hv =>
        obtain ⟨handle⟩ := v
        exact congrArg (fun n => some (Variable.mk n)) (Eq.symm hv)
      · -- the scope would have the name already
        have htaken := (h d.scope d.name v).mpr ⟨e, he, hscope, hname⟩
        rw [hnew] at htaken
        cases htaken
  · next hother =>
    rw [h s name v]
    constructor
    · rintro ⟨e, he, hscope, hname⟩
      exact ⟨e, (if_neg (hold e he)).trans he, hscope, hname⟩
    · rintro ⟨e, he, hscope, hname⟩
      split at he
      · obtain rfl := Option.some.inj he
        exact absurd ⟨hscope.symm, hname.symm⟩ hother
      · exact ⟨e, he, hscope, hname⟩

end Agree

end ScopeData

namespace SymbolTable

def empty : SymbolTable := ⟨.empty, .empty, .empty⟩

def size (t : SymbolTable) : Nat := t.declarations.size

/-- Open a scope, nested in `parent` if one is given. -/
def newScope (t : SymbolTable) (parent : Option Scope) : Scope × SymbolTable :=
  (⟨t.scopes.size⟩,
    ⟨t.declarations, (t.scopes.alloc ⟨parent, []⟩).2, t.agree.newScope parent⟩)

def declaration? (t : SymbolTable) (v : Variable) : Option Declaration :=
  t.declarations.get? v.handle

def contains (t : SymbolTable) (v : Variable) : Bool := (t.declaration? v).isSome

/-- The declaration of a variable that is expected to be in the table. -/
def declaration (t : SymbolTable) (v : Variable) : Except Fault Declaration :=
  match t.declaration? v with
  | some d => .ok d
  | none => .error .dangling

def name (t : SymbolTable) (v : Variable) : Except Fault String :=
  (t.declaration v).map (·.name)

def parent? (t : SymbolTable) (s : Scope) : Option (Option Scope) :=
  (t.scopes.get? s.index).map ScopeData.parent

def parent (t : SymbolTable) (s : Scope) : Except Fault (Option Scope) :=
  match t.parent? s with
  | some p => .ok p
  | none => .error .dangling

/-- The variable that the scope itself declares under a name. -/
def declaredIn? (t : SymbolTable) (s : Scope) (name : String) : Option Variable :=
  ScopeData.named? t.scopes s name

/-- Put a declaration into the table, and its name into its scope. -/
def store (t : SymbolTable) (d : Declaration) (hs : d.scope.index < t.scopes.size)
    (hnew : t.declaredIn? d.scope d.name = none) : SymbolTable where
  declarations := (t.declarations.alloc d).2
  scopes := t.scopes.modify d.scope.index (·.addName d.name ⟨t.declarations.size⟩)
  agree := t.agree.declare hs hnew

/-- Declare a variable. An outer name may be shadowed, but a scope declares a name once. -/
def declare (t : SymbolTable) (s : Scope) (name : String) (type : ValueType) :
    Except SymbolError (Variable × SymbolTable) :=
  if hs : s.index < t.scopes.size then
    if hnew : t.declaredIn? s name = none then
      .ok (⟨t.declarations.size⟩, t.store ⟨name, type, s⟩ hs hnew)
    else .error (.redeclared name)
  else .error (.fault .dangling)

/-- Resolve a name in at most `steps` scopes, from `s` outwards. -/
def lookupWithin (t : SymbolTable) (name : String) : Nat → Scope → Except Fault (Option Variable)
  | 0, _ => .ok none
  | steps + 1, s =>
    match t.scopes.get? s.index with
    | none => .error .dangling
    | some data =>
      match data.names.lookup name, data.parent with
      | some v, _ => .ok (some v)
      | none, some p => t.lookupWithin name steps p
      | none, none => .ok none

/-- Resolve a name from a scope outwards. More steps than there are scopes would meet
one of them again, so nothing is found after them. -/
def lookup (t : SymbolTable) (s : Scope) (name : String) : Except Fault (Option Variable) :=
  t.lookupWithin name (t.scopes.size + 1) s

end SymbolTable

end RegisterColoring
