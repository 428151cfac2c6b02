import RegisterColoring.Source.Directive
/-!
# The language of the brackets

Functions and scopes are opened and closed like brackets. The words of this language are sequences
of functions, each with balanced scopes in it. A word is recognised by how many scopes are open at
each of its places.
-/
namespace RegisterColoring.Source

/-- Sequences in which every scope that is opened is closed, and no other is closed. -/
inductive Balanced : List Directive → Prop
  | nil : Balanced []
  | scope {inner rest : List Directive} (hinner : Balanced inner) (hrest : Balanced rest) :
    Balanced (.openScope :: inner ++ .closeScope :: rest)

def functionWord (g : String × List Directive) : List Directive :=
  .openFunction g.1 :: g.2 ++ [.closeFunction]

/-- Functions one after the other, with balanced scopes in each. -/
def Grouped (word : List Directive) : Prop :=
  ∃ groups : List (String × List Directive), (∀ g ∈ groups, Balanced g.2) ∧
    word = groups.flatMap functionWord

/-- Some way to go on leads to functions one after the other. -/
def Extensible (word : List Directive) : Prop := ∃ rest, Grouped (word ++ rest)

theorem grouped_nil : Grouped [] := ⟨[], by simp, rfl⟩

private theorem Grouped.cons {body rest : List Directive} (hbody : Balanced body) (h : Grouped rest)
    (name : String) : Grouped (.openFunction name :: body ++ .closeFunction :: rest) := by
  obtain ⟨groups, hgroups, rfl⟩ := h
  refine ⟨(name, body) :: groups, ?_, ?_⟩
  · exact List.forall_mem_cons.mpr ⟨hbody, hgroups⟩
  · simp [functionWord]

/-- How many scopes are open after a directive, if it belongs into a function. -/
def scopeStep : Nat → Directive → Option Nat
  | depth, .openScope => some (depth + 1)
  | depth + 1, .closeScope => some depth
  | _, _ => none

/-- Where a directive leads to. Outside of all functions there is no depth. -/
def depthStep : Option Nat → Directive → Option (Option Nat)
  | none, .openFunction _ => some (some 0)
  | some 0, .closeFunction => some none
  | some depth, d => (scopeStep depth d).map some
  | none, _ => none

def scopeWalk (depth : Nat) (word : List Directive) : Option Nat := word.foldlM scopeStep depth

def depthWalk (depth : Option Nat) (word : List Directive) : Option (Option Nat) :=
  word.foldlM depthStep depth

@[simp] theorem scopeWalk_nil (depth : Nat) : scopeWalk depth [] = some depth := rfl

@[simp] theorem scopeWalk_cons (depth : Nat) (d : Directive) (word : List Directive) :
    scopeWalk depth (d :: word) = (scopeStep depth d).bind fun next => scopeWalk next word :=
  List.foldlM_cons

@[simp] theorem depthWalk_nil (depth : Option Nat) : depthWalk depth [] = some depth := rfl

@[simp] theorem depthWalk_cons (depth : Option Nat) (d : Directive) (word : List Directive) :
    depthWalk depth (d :: word) = (depthStep depth d).bind fun next => depthWalk next word :=
  List.foldlM_cons

theorem scopeWalk_append (depth : Nat) (word rest : List Directive) :
    scopeWalk depth (word ++ rest) = (scopeWalk depth word).bind fun next => scopeWalk next rest :=
  List.foldlM_append

theorem depthWalk_append (depth : Option Nat) (word rest : List Directive) :
    depthWalk depth (word ++ rest) =
      (depthWalk depth word).bind fun next => depthWalk next rest :=
  List.foldlM_append

@[simp] theorem scopeStep_openScope (depth : Nat) :
    scopeStep depth .openScope = some (depth + 1) := rfl

@[simp] theorem scopeStep_closeScope (depth : Nat) :
    scopeStep (depth + 1) .closeScope = some depth := rfl

private theorem scopeStep_eq_some {depth next : Nat} {d : Directive}
    (h : scopeStep depth d = some next) : (d = .openScope ∧ next = depth + 1) ∨
    (d = .closeScope ∧ depth = next + 1) := by
  unfold scopeStep at h
  split at h
  · exact .inl ⟨rfl, (Option.some.inj h).symm⟩
  · exact .inr ⟨rfl, by rw [Option.some.inj h]⟩
  · cases h

private theorem depthStep_of_scopeStep {depth next : Nat} {d : Directive}
    (h : scopeStep depth d = some next) : depthStep (some depth) d = some (some next) := by
  obtain ⟨rfl, rfl⟩ | ⟨rfl, rfl⟩ := scopeStep_eq_some h
  · cases depth <;> rfl
  · rfl

private theorem depthWalk_of_scopeWalk {depth next : Nat} {word : List Directive}
    (h : scopeWalk depth word = some next) : depthWalk (some depth) word = some (some next) := by
  induction word generalizing depth with
  | nil => simpa using h
  | cons d word ih =>
    rw [scopeWalk_cons, Option.bind_eq_some_iff] at h
    obtain ⟨middle, hd, hword⟩ := h
    simp [depthStep_of_scopeStep hd, ih hword]

theorem closeFunction_not_mem {depth next : Nat} {word : List Directive}
    (h : scopeWalk depth word = some next) : Directive.closeFunction ∉ word := by
  induction word generalizing depth with
  | nil => simp
  | cons d word ih =>
    rw [scopeWalk_cons, Option.bind_eq_some_iff] at h
    obtain ⟨middle, hd, hword⟩ := h
    obtain ⟨rfl, _⟩ | ⟨rfl, _⟩ := scopeStep_eq_some hd <;> simp [ih hword]

private theorem Balanced.scopeWalk {word : List Directive} (h : Balanced word) (depth : Nat) :
    scopeWalk depth word = some depth := by
  induction h generalizing depth with
  | nil => rfl
  | scope _ _ ihinner ihrest => simp [scopeWalk_append, ihinner, ihrest]

/-- So many scopes are left to be closed, and those opened in between are balanced. -/
def ClosesScopes : Nat → List Directive → Prop
  | 0, word => Balanced word
  | depth + 1, word => ∃ inner rest, word = inner ++ .closeScope :: rest ∧ Balanced inner ∧
    ClosesScopes depth rest

private theorem ClosesScopes.enclose {depth : Nat} {inner rest : List Directive}
    (hinner : Balanced inner) (h : ClosesScopes depth rest) :
    ClosesScopes depth (.openScope :: inner ++ .closeScope :: rest) := by
  cases depth with
  | zero => exact Balanced.scope hinner h
  | succ depth =>
    obtain ⟨first, rest, rfl, hfirst, hrest⟩ := h
    exact ⟨.openScope :: inner ++ .closeScope :: first, rest, by simp, .scope hinner hfirst, hrest⟩

private theorem closesScopes_of_scopeWalk {depth : Nat} {word : List Directive}
    (h : scopeWalk depth word = some 0) : ClosesScopes depth word := by
  induction word generalizing depth with
  | nil =>
    obtain rfl : depth = 0 := by simpa using h
    exact .nil
  | cons d word ih =>
    rw [scopeWalk_cons, Option.bind_eq_some_iff] at h
    obtain ⟨next, hd, hword⟩ := h
    have hrest := ih hword
    obtain ⟨rfl, rfl⟩ | ⟨rfl, rfl⟩ := scopeStep_eq_some hd
    · obtain ⟨inner, rest, rfl, hinner, hrest⟩ := hrest
      exact hrest.enclose hinner
    · exact ⟨[], word, rfl, .nil, hrest⟩

theorem balanced_iff (word : List Directive) : Balanced word ↔ scopeWalk 0 word = some 0 :=
  ⟨fun h => h.scopeWalk 0, closesScopes_of_scopeWalk⟩

theorem Grouped.depthWalk {word : List Directive} (h : Grouped word) :
    depthWalk none word = some none := by
  obtain ⟨groups, hgroups, rfl⟩ := h
  induction groups with
  | nil => rfl
  | cons g groups ih =>
    obtain ⟨hg, hgroups⟩ := List.forall_mem_cons.mp hgroups
    have hbody := depthWalk_of_scopeWalk (hg.scopeWalk 0)
    simp [functionWord, depthStep, depthWalk_append, hbody, ih hgroups]

/-- What is left to be read from a depth: the scopes that are open and their function are closed. -/
def ClosesAll : Option Nat → List Directive → Prop
  | none, word => Grouped word
  | some depth, word => ∃ inner rest, word = inner ++ .closeFunction :: rest ∧
    scopeWalk depth inner = some 0 ∧ Grouped rest

private theorem closesAll_of_depthWalk {depth : Option Nat} {word : List Directive}
    (h : depthWalk depth word = some none) : ClosesAll depth word := by
  induction word generalizing depth with
  | nil =>
    obtain rfl : depth = none := by simpa using h
    exact grouped_nil
  | cons d word ih =>
    rw [depthWalk_cons, Option.bind_eq_some_iff] at h
    obtain ⟨next, hd, hword⟩ := h
    have hrest := ih hword
    unfold depthStep at hd
    split at hd
    · obtain rfl := Option.some.inj hd
      obtain ⟨inner, rest, rfl, hinner, hrest⟩ := hrest
      exact hrest.cons ((balanced_iff inner).mpr hinner) _
    · obtain rfl := Option.some.inj hd
      exact ⟨[], word, rfl, rfl, hrest⟩
    · obtain ⟨next, hscope, rfl⟩ := Option.map_eq_some_iff.mp hd
      obtain ⟨inner, rest, rfl, hinner, hrest⟩ := hrest
      exact ⟨d :: inner, rest, rfl, by simp [hscope, hinner], hrest⟩
    · cases hd

theorem grouped_iff (word : List Directive) : Grouped word ↔ depthWalk none word = some none :=
  ⟨Grouped.depthWalk, closesAll_of_depthWalk⟩

instance (word : List Directive) : Decidable (Grouped word) :=
  decidable_of_iff _ (grouped_iff word).symm

private theorem exists_depthWalk (depth : Option Nat) :
    ∃ rest, depthWalk depth rest = some none := by
  cases depth with
  | none => exact ⟨[], rfl⟩
  | some depth =>
    induction depth with
    | zero => exact ⟨[.closeFunction], rfl⟩
    | succ depth ih =>
      obtain ⟨rest, hrest⟩ := ih
      exact ⟨.closeScope :: rest, by simpa [depthStep] using hrest⟩

theorem extensible_iff (word : List Directive) :
    Extensible word ↔ ∃ depth, depthWalk none word = some depth := by
  constructor
  · intro h
    obtain ⟨rest, hrest⟩ := h
    rw [grouped_iff, depthWalk_append, Option.bind_eq_some_iff] at hrest
    obtain ⟨depth, hdepth, _⟩ := hrest
    exact ⟨depth, hdepth⟩
  · intro h
    obtain ⟨depth, hdepth⟩ := h
    obtain ⟨rest, hrest⟩ := exists_depthWalk depth
    refine ⟨rest, ?_⟩
    rw [grouped_iff, depthWalk_append, hdepth]
    exact hrest

end RegisterColoring.Source
