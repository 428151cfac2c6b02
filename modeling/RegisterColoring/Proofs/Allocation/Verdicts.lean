import RegisterColoring.Proofs.Allocation.Outcome
import RegisterColoring.Proofs.Flow.Buildable
/-!
# How a run ends

A run looks up every accessed variable before it asks for registers. So a variable that is not in
the table comes before an empty pool, and among variables the first mention decides. Nothing else
can stop a run.
-/
namespace RegisterColoring

/-- The class of a variable, if the pools have no register of it. -/
def Pools.lacks? (pools : Pools) (t : SymbolTable) (v : Variable) : Option RegisterClass :=
  ((t.declaration? v).map fun d => RegisterClass.ofType d.type).filter fun k =>
    (pools.ofClass k).isEmpty

private theorem Pools.lacks?_of_declaration (pools : Pools) {t : SymbolTable} {v : Variable}
    {d : Declaration} (hd : t.declaration? v = some d) : pools.lacks? t v =
      if (pools.ofClass (RegisterClass.ofType d.type)).isEmpty then
        some (RegisterClass.ofType d.type) else none := by
  rw [lacks?, hd, Option.map_some, Option.filter_some]

theorem Pools.lacks?_eq_some {pools : Pools} {t : SymbolTable} {v : Variable} {k : RegisterClass} :
    pools.lacks? t v = some k ↔ ∃ d, t.declaration? v = some d ∧
      RegisterClass.ofType d.type = k ∧ pools.ofClass k = [] := by
  simp only [lacks?, Option.filter_eq_some_iff, Option.map_eq_some_iff, List.isEmpty_iff]
  constructor
  · rintro ⟨⟨d, hd, hk⟩, hempty⟩
    exact ⟨d, hd, hk, hempty⟩
  · rintro ⟨d, hd, hk, hempty⟩
    exact ⟨⟨d, hd, hk⟩, hempty⟩

namespace Node
variable {pools : Pools} {t : SymbolTable}

private theorem passes_iff {v : Variable} (hv : t.contains v = true) :
    Passes pools t v ↔ pools.lacks? t v = none := by
  obtain ⟨d, hd⟩ := Option.isSome_iff_exists.mp hv
  simp [Passes, pools.lacks?_of_declaration hd, hd]

private theorem ofVariable_eq_error {function : String} {id : Nat} {v : Variable} {e : AllocError}
    (hv : t.contains v = true) (h : ofVariable pools t function id v = .error e) :
    ∃ k, pools.lacks? t v = some k ∧ e = .emptyPool k := by
  obtain ⟨d, hd⟩ := Option.isSome_iff_exists.mp hv
  simp only [ofVariable, hd] at h
  split at h
  · next hempty =>
    refine ⟨RegisterClass.ofType d.type, ?_, (Except.error.inj h).symm⟩
    rw [pools.lacks?_of_declaration hd, if_pos hempty]
  · cases h

section OfFlow
variable {g : FlowGraph} (hcontains : ∀ v ∈ g.vars.toList, t.contains v = true)
include hcontains

private theorem exists_ofFlow_iff_lacks? : (∃ nodes, ofFlow pools t g = .ok nodes) ↔
    g.vars.toList.findSome? (pools.lacks? t) = none := by
  rw [exists_ofFlow_iff, List.findSome?_eq_none_iff]
  exact forall₂_congr fun v hv => passes_iff (hcontains v hv)

/-- The lowest variable without a register decides. -/
theorem ofFlow_eq_error {e : AllocError} (h : ofFlow pools t g = .error e) :
    ∃ k, g.vars.toList.findSome? (pools.lacks? t) = some k ∧ e = .emptyPool k := by
  obtain ⟨before, p, after, hsplit, hbefore, hp⟩ := (mapM_eq_error_iff _ _ _).mp h
  have hvars : g.vars.toList = before.map Prod.fst ++ p.1 :: after.map Prod.fst := by
    rw [← List.zipIdx_map_fst 0 g.vars.toList, hsplit, List.map_append, List.map_cons]
  obtain ⟨k, hk, rfl⟩ := ofVariable_eq_error (hcontains p.1 (by simp [hvars])) hp
  refine ⟨k, ?_, rfl⟩
  rw [List.findSome?_eq_some_iff]
  refine ⟨before.map Prod.fst, p.1, after.map Prod.fst, hvars, hk, ?_⟩
  intro v hv
  obtain ⟨q, hq, rfl⟩ := List.mem_map.mp hv
  obtain ⟨n, hn⟩ := hbefore q hq
  obtain ⟨d, hd, hne, _⟩ := (ofVariable_eq_ok_iff _ _ _ _ _ _).mp hn
  exact (passes_iff (hcontains q.1 (by simp [hvars, hv]))).mp ⟨d, hd, hne⟩

end OfFlow

end Node

namespace Allocator

theorem allocate_verdict (a : Allocator) {g : FlowGraph} {t : SymbolTable}
    (hcontains : ∀ v ∈ g.vars.toList, t.contains v = true) :
    (∃ k, g.vars.toList.findSome? (a.pools.lacks? t) = some k ∧
      (a.allocate g t).result = .error (.emptyPool k)) ∨
    (g.vars.toList.findSome? (a.pools.lacks? t) = none ∧
      ∃ result, (a.allocate g t).result = .ok result) := by
  cases hnodes : Node.ofFlow a.pools t g with
  | error e =>
    obtain ⟨k, hk, rfl⟩ := Node.ofFlow_eq_error hcontains hnodes
    exact .inl ⟨k, hk, by rw [allocate_of_error ((outcome_eq_error_iff _ _ _ _).mpr hnodes)]⟩
  | ok nodes =>
    have hpass := (Node.exists_ofFlow_iff a.pools t g).mp ⟨nodes, hnodes⟩
    exact .inr ⟨(Node.exists_ofFlow_iff_lacks? hcontains).mp ⟨nodes, hnodes⟩, exists_allocate hpass⟩

private theorem run_of_missing (a : Allocator) {f : Function} {t : SymbolTable} {v : Variable}
    (h : f.accessed.find? (fun v => !t.contains v) = some v) :
    (a.run f t).2 = .error (.unknownVariable f.name v.handle) := by
  have htiles := Bounds.tiles_partition f.code
  rw [run, FlowGraph.build, (FlowGraph.ofBounds_of_tiles htiles).1 v h]

theorem exists_run_eq_allocate (a : Allocator) {f : Function} {t : SymbolTable}
    (h : ∀ v ∈ f.accessed, t.contains v = true) : ∃ g, FlowGraph.build f t = .ok g ∧
      g.vars.toList = f.accessed.eraseDups ∧ (∀ v ∈ g.vars.toList, t.contains v = true) ∧
      (a.run f t).2 = (a.allocate g t).result := by
  have htiles := Bounds.tiles_partition f.code
  obtain ⟨g, hg⟩ := (FlowGraph.ofBounds_of_tiles htiles).2 (by simpa using h)
  have hvars := FlowGraph.vars_of_ofBounds hg
  refine ⟨g, hg, hvars, ?_, by rw [run, FlowGraph.build, hg]⟩
  intro v hv
  rw [hvars, List.mem_eraseDups] at hv
  exact h v hv

/-- A run names the first variable that is not in the table, in the order of the lines and with the
definitions of a line before its uses. If all are there it names the class of the lowest variable
for which there is no register, and else it has a result. No other error occurs. -/
theorem run_verdict (a : Allocator) (f : Function) (t : SymbolTable) :
    (∀ v, f.accessed.find? (fun v => !t.contains v) = some v →
      (a.run f t).2 = .error (.unknownVariable f.name v.handle)) ∧
    ((∀ v ∈ f.accessed, t.contains v = true) → ∃ g, FlowGraph.build f t = .ok g ∧
      g.vars.toList = f.accessed.eraseDups ∧
      (∀ k, g.vars.toList.findSome? (a.pools.lacks? t) = some k →
        (a.run f t).2 = .error (.emptyPool k)) ∧
      (g.vars.toList.findSome? (a.pools.lacks? t) = none →
        ∃ result, (a.run f t).2 = .ok result)) ∧
    ∀ e, (a.run f t).2 = .error e →
      (∃ handle, e = .unknownVariable f.name handle) ∨ ∃ k, e = .emptyPool k := by
  refine ⟨fun v => a.run_of_missing, ?_, ?_⟩
  · intro hall
    obtain ⟨g, hg, hvars, hcontains, hrun⟩ := a.exists_run_eq_allocate hall
    have hverdict := a.allocate_verdict hcontains
    rw [← hrun] at hverdict
    refine ⟨g, hg, hvars, ?_, ?_⟩
    · intro k hk
      rcases hverdict with ⟨k', hk', herror⟩ | ⟨hnone, _⟩
      · rw [hk, Option.some.injEq] at hk'
        rw [herror, hk']
      · rw [hk] at hnone
        cases hnone
    · intro hnone
      rcases hverdict with ⟨k, hk, _⟩ | ⟨_, hok⟩
      · rw [hnone] at hk
        cases hk
      · exact hok
  · intro e he
    cases hfind : f.accessed.find? fun v => !t.contains v with
    | some v =>
      rw [a.run_of_missing hfind] at he
      exact .inl ⟨v.handle, (Except.error.inj he).symm⟩
    | none =>
      obtain ⟨g, _, _, hcontains, hrun⟩ := a.exists_run_eq_allocate (by simpa using hfind)
      rw [hrun] at he
      rcases a.allocate_verdict hcontains with ⟨k, _, herror⟩ | ⟨_, result, hok⟩
      · rw [herror] at he
        exact .inr ⟨k, (Except.error.inj he).symm⟩
      · rw [hok] at he
        cases he

/-- A missing variable comes before the empty pools, and two empty pools are reported by the lower
variable. -/
theorem spin_run_verdict :
    let pools : Pools := ⟨[], []⟩
    let short : SymbolTable := .ofDeclarations [⟨"a", .int, ⟨0⟩⟩, ⟨"b", .int, ⟨0⟩⟩] [none]
    let mixed : SymbolTable :=
      .ofDeclarations [⟨"a", .double, ⟨0⟩⟩, ⟨"b", .int, ⟨0⟩⟩, ⟨"c", .int, ⟨0⟩⟩] [none]
    ((new pools).run spin short).2 = .error (.unknownVariable "spin" 2) ∧
    ((new pools).run spin mixed).2 = .error (.emptyPool .float) ∧
    ∃ result, ((new (Pools.standard.take 1 0)).run spin spinTable).2 = .ok result := by
  intro pools short mixed
  refine ⟨(run_verdict (new pools) spin short).1 ⟨2⟩ (by decide), ?_, ?_⟩
  · obtain ⟨g, _, hvars, hlacks, _⟩ := (run_verdict (new pools) spin mixed).2.1 (by decide)
    exact hlacks .float (by rw [hvars]; decide)
  · obtain ⟨g, _, hvars, _, hok⟩ :=
      (run_verdict (new (Pools.standard.take 1 0)) spin spinTable).2.1 (by decide)
    exact hok (by rw [hvars]; decide)

end Allocator

end RegisterColoring
