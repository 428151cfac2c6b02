import RegisterColoring.Proofs.Allocation.History
/-!
# What refused calls leave

Refused calls leave all tables as they were, but the last numbering that one of them made stays in
place. A variable is then looked up under a number that may have been another variable's.
-/
namespace RegisterColoring

/-- The numbering that a call puts in place, whether or not it is refused afterwards. -/
def Call.numbering? : Call → Option Numbering
  | .run f t => (FlowGraph.build f t).toOption.map FlowGraph.vars
  | .allocate g _ => some g.vars
  | .free _ => none

def Call.numbering (vars : Numbering) (calls : List Call) : Numbering :=
  calls.foldl (fun vars c => c.numbering?.getD vars) vars

namespace Allocator

inductive Refuses (a : Allocator) : Call → AllocError → Prop
  | run {f : Function} {t : SymbolTable} {e : AllocError} (h : (a.run f t).2 = .error e) :
    Refuses a (.run f t) e
  | allocate {g : FlowGraph} {t : SymbolTable} {e : AllocError}
    (h : (a.allocate g t).result = .error e) : Refuses a (.allocate g t) e

def RefusesAll (a : Allocator) : List Call → Prop
  | [] => True
  | c :: calls => (∃ e, a.Refuses c e) ∧ (a.serve c).RefusesAll calls

/-- The allocator with another numbering and other notes, and all tables as they were. -/
def Renumbered (a : Allocator) (vars : Numbering) (left : Allocator) : Prop :=
  ∃ files sizes, left = { a with vars, files, sizes }

private theorem renumbered_allocate {a : Allocator} {g : FlowGraph} {t : SymbolTable}
    {e : AllocError} (h : (a.allocate g t).result = .error e) :
    a.Renumbered g.vars (a.allocate g t).allocator := by
  cases houtcome : outcome a.pools g t with
  | error e' =>
    rw [allocate_of_error houtcome]
    exact ⟨_, _, rfl⟩
  | ok placed =>
    rw [allocate_of_ok houtcome] at h
    cases h

private theorem renumbered_serve {a : Allocator} {c : Call} {e : AllocError} (h : a.Refuses c e) :
    a.Renumbered (c.numbering?.getD a.vars) (a.serve c) ∧
      (c.numbering? = none → a.serve c = a) := by
  cases h with
  | @run f t e h =>
    simp only [serve, Call.numbering?, run] at h ⊢
    cases hbuild : FlowGraph.build f t with
    | error e' => exact ⟨⟨_, _, rfl⟩, fun _ => rfl⟩
    | ok g =>
      rw [hbuild] at h
      refine ⟨renumbered_allocate h, ?_⟩
      intro hnone
      cases hnone
  | allocate h =>
    refine ⟨renumbered_allocate h, ?_⟩
    intro hnone
    cases hnone

private theorem renumbered_foldl_serve {a : Allocator} {calls : List Call}
    (h : a.RefusesAll calls) :
    a.Renumbered (Call.numbering a.vars calls) (calls.foldl serve a) ∧
      ((∀ c ∈ calls, c.numbering? = none) → calls.foldl serve a = a) := by
  induction calls generalizing a with
  | nil => exact ⟨⟨_, _, rfl⟩, fun _ => rfl⟩
  | cons c calls ih =>
    obtain ⟨⟨e, hrefused⟩, hlater⟩ := h
    obtain ⟨⟨files, sizes, hserved⟩, hkept⟩ := renumbered_serve hrefused
    obtain ⟨⟨files', sizes', hleft⟩, hunchanged⟩ := ih hlater
    constructor
    · refine ⟨files', sizes', ?_⟩
      rw [List.foldl_cons, hleft, hserved]
      rfl
    · intro hnone
      obtain ⟨hc, hcalls⟩ := List.forall_mem_cons.mp hnone
      rw [List.foldl_cons, hunchanged hcalls, hkept hc]

/-- After refused calls the count of spills and the registers answer as before. A variable answers
what the variable with its new number answered before, so it keeps its answer if it keeps its
number. If no call came as far as a numbering, nothing has changed. -/
theorem refused_calls_keep_tables {a : Allocator} {calls : List Call} (h : a.RefusesAll calls) :
    let left := calls.foldl serve a
    let vars := Call.numbering a.vars calls
    left.totalSpills = a.totalSpills ∧
    (∀ r, left.registerDescriptor? r = a.registerDescriptor? r) ∧
    (∀ v, left.variableDescriptor? v = (vars.id? v).bind fun id => a.variableTable[id]?) ∧
    (∀ v w, vars.id? v = a.vars.id? w →
      left.variableDescriptor? v = a.variableDescriptor? w) ∧
    ((∀ c ∈ calls, c.numbering? = none) → left = a) := by
  intro left vars
  obtain ⟨⟨files, sizes, hleft⟩, hunchanged⟩ := renumbered_foldl_serve h
  have hleft : left = { a with vars, files, sizes } := hleft
  rw [hleft]
  refine ⟨rfl, fun _ => rfl, fun _ => rfl, ?_, ?_⟩
  · intro v w hid
    rw [variableDescriptor?, hid, variableDescriptor?]
  · intro hnone
    rw [← hleft]
    exact hunchanged hnone

/-- Like `mixed` without its last variable, and the others in another order. -/
def pair : Function where
  name := "f"
  scope := ⟨0⟩
  code := [
    ⟨none, .assign, [.var ⟨0⟩, .literal "1"]⟩,
    ⟨none, .assign, [.var ⟨1⟩, .literal "2"]⟩,
    ⟨none, .binary .add, [.var ⟨0⟩, .var ⟨0⟩, .var ⟨1⟩]⟩,
    ⟨none, .ret, [.var ⟨0⟩]⟩]

private theorem refuses_mixed (calls : List Call) :
    (after (Pools.standard.take 2 0) calls).Refuses (.run mixed pairTable) (.emptyPool .float) := by
  obtain ⟨g, hbuild, houtcome⟩ : ∃ g, FlowGraph.build mixed pairTable = .ok g ∧
      outcome (Pools.standard.take 2 0) g pairTable = .error (.emptyPool .float) :=
    ⟨_, rfl, by decide +kernel⟩
  rw [← pools_after (Pools.standard.take 2 0) calls] at houtcome
  apply Refuses.run
  rw [run, hbuild]
  simp only [allocate_of_error houtcome]

/-- Two refused runs: one for want of a floating point register, and one whose variables are
unknown, which leaves the numbering of the first. -/
theorem pair_refused_calls_keep_tables :
    let a := after (Pools.standard.take 2 0) [.run pair pairTable]
    let calls := [.run mixed pairTable, .run pair (.ofDeclarations [] [none])]
    a.RefusesAll calls ∧ (calls.foldl serve a).totalSpills = a.totalSpills ∧
    (∀ r, (calls.foldl serve a).registerDescriptor? r = a.registerDescriptor? r) ∧
    (calls.foldl serve a).variableDescriptor? ⟨0⟩ = a.variableDescriptor? ⟨1⟩ := by
  intro a calls
  have hrefused : a.RefusesAll calls :=
    ⟨⟨_, refuses_mixed _⟩, ⟨.unknownVariable "f" 0, .run rfl⟩, trivial⟩
  obtain ⟨hspills, hregisters, _, hvariables, _⟩ := refused_calls_keep_tables hrefused
  exact ⟨hrefused, hspills, hregisters, hvariables ⟨0⟩ ⟨1⟩ (by decide +kernel)⟩

/-- A refused run makes two variables answer with each other's register. -/
theorem refused_run_swaps_answers :
    let a := after (Pools.standard.take 2 0) [.run pair pairTable]
    let left := a.serve (.run mixed pairTable)
    a.Refuses (.run mixed pairTable) (.emptyPool .float) ∧
    a.variableDescriptor? ⟨0⟩ = some ⟨[.register ⟨3, .general⟩]⟩ ∧
    a.variableDescriptor? ⟨1⟩ = some ⟨[.register ⟨0, .general⟩]⟩ ∧
    left.variableDescriptor? ⟨0⟩ = some ⟨[.register ⟨0, .general⟩]⟩ ∧
    left.variableDescriptor? ⟨1⟩ = some ⟨[.register ⟨3, .general⟩]⟩ := by
  exact ⟨refuses_mixed _, by decide +kernel, by decide +kernel, by decide +kernel,
    by decide +kernel⟩

end Allocator

end RegisterColoring
