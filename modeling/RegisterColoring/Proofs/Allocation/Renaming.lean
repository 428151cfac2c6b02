import RegisterColoring.Proofs.Allocation.History
import RegisterColoring.Proofs.Allocation.Verdicts
import RegisterColoring.Proofs.Coloring.Renaming
import Mathlib.Data.Finset.Lattice.Fold
/-!
# Allocations of renamed functions

Names, scopes, the order of declarations and the values of handles make no difference to a run: the
variables of a renamed function get the places of those that they stand for.
-/
namespace RegisterColoring

namespace FlowGraph

private theorem sweeps_congr {g g' : FlowGraph} (hsuccs : g'.succs = g.succs) (limit : Nat)
    (blocks : Array Block) : g'.sweeps limit blocks = g.sweeps limit blocks := by
  have hvisit : g'.visit = g.visit := by
    funext state id
    simp only [visit, hsuccs]
  induction limit generalizing blocks with
  | zero => rfl
  | succ limit ih =>
    have hsweep : g'.sweep blocks = g.sweep blocks := by rw [sweep, hvisit, sweep]
    rw [sweeps, sweeps, hsweep]
    rcases g.sweep blocks with ⟨next, _ | _⟩
    · rfl
    · simp only [ih]

variable (m : Variable → Variable) (function : String) (g : FlowGraph)

private theorem analyzeSets_rename :
    (g.rename m function).analyzeSets.1 = g.analyzeSets.1.rename m function := by
  have hsuccs : (g.rename m function).succs = g.succs := rfl
  have hlimit : (g.rename m function).sweepLimit = g.sweepLimit := by
    simp only [sweepLimit, rename, Numbering.size_rename]
  simp only [analyzeSets, hlimit, sweeps_congr hsuccs]
  rfl

private theorem analyzeIntervals_rename :
    (g.rename m function).analyzeIntervals = g.analyzeIntervals.rename m function := by
  simp only [analyzeIntervals, rename, Numbering.size_rename]

private theorem analyze_rename :
    (g.rename m function).analyze.1 = g.analyze.1.rename m function := by
  have hsets := congrArg analyzeIntervals (g.analyzeSets_rename m function)
  exact hsets.trans (g.analyzeSets.1.analyzeIntervals_rename m function)

end FlowGraph

private theorem InterferenceGraph.ofFlow_rename (m : Variable → Variable) (function : String)
    (g : FlowGraph) : ofFlow (g.rename m function) = ofFlow g := by
  have hsize : (g.rename m function).vars.size = g.vars.size := Numbering.size_rename m g.vars
  rw [ofFlow, hsize]
  rfl

def Placement.rename (m : Variable → Variable) (p : Placement) : Placement :=
  { p with node := p.node.rename m }

private theorem Placement.layout_rename (m : Variable → Variable) (colors : Colors) (offset : Nat)
    (nodes : List Node) : layout colors offset (nodes.map (Node.rename m)) =
      (layout colors offset nodes).map (List.map (rename m)) := by
  induction nodes generalizing offset with
  | nil => rfl
  | cons n nodes ih =>
    have hcolor : colors[(n.rename m).id]? = colors[n.id]? := rfl
    rw [List.map_cons, layout, layout, hcolor]
    rcases colors[n.id]? with _ | r | _
    · rfl
    · simp only [ih]
      cases layout colors offset nodes <;> rfl
    · have hsize : (n.rename m).size = n.size := rfl
      simp only [hsize, ih]
      cases layout colors (offset + n.size) nodes <;> rfl

namespace Allocation

def rename (m : Variable → Variable) (a : Allocation) : Allocation where
  vars := a.vars.map m
  registers := a.registers.map fun p => (m p.1, p.2)
  spilled := a.spilled.map m
  offsets := a.offsets.map fun p => (m p.1, p.2)
  area := a.area

private theorem ofPlacements_rename (m : Variable → Variable) (placed : List Placement) :
    ofPlacements (placed.map (Placement.rename m)) = (ofPlacements placed).rename m := by
  have hspilled : Placement.spilled (placed.map (Placement.rename m)) =
      (Placement.spilled placed).map (Node.rename m) := by
    simp only [Placement.spilled, List.filter_map, List.map_map]
    rfl
  simp only [ofPlacements, rename, hspilled, List.map_map, List.foldl_map, List.filterMap_map,
    List.map_filterMap, Option.map_map]
  rfl

structure Within (a : Allocation) (vs : List Variable) : Prop where
  vars : ∀ v ∈ a.vars, v ∈ vs
  registers : ∀ p ∈ a.registers, p.1 ∈ vs
  spilled : ∀ v ∈ a.spilled, v ∈ vs
  offsets : ∀ p ∈ a.offsets, p.1 ∈ vs

private theorem within_ofPlacements {placed : List Placement} {vs : List Variable}
    (h : ∀ p ∈ placed, p.node.var ∈ vs) : (ofPlacements placed).Within vs := by
  have hpart : ∀ {α : Type} (part : Location → Option α), ∀ q ∈ placed.filterMap fun p =>
      (part p.location).map fun x => (p.node.var, x), q.1 ∈ vs := by
    intro α part q hq
    obtain ⟨p, hp, hv, _⟩ := (mem_filterMap_location part q.1 q.2).mp hq
    exact hv ▸ h p hp
  refine ⟨?_, hpart Location.register?, ?_, hpart Location.memory?⟩
  · intro v hv
    obtain ⟨p, hp, rfl⟩ := List.mem_map.mp hv
    exact h p hp
  · intro v hv
    obtain ⟨n, hn, rfl⟩ := List.mem_map.mp hv
    obtain ⟨p, hp, rfl⟩ := List.mem_map.mp hn
    exact h p (List.mem_filter.mp hp).1

private theorem lookup_rename {α : Type} {m : Variable → Variable} {entries : List (Variable × α)}
    {v w : Variable} (h : ∀ p ∈ entries, m p.1 = w ↔ p.1 = v) :
    (entries.map fun p => (m p.1, p.2)).lookup w = entries.lookup v := by
  induction entries with
  | nil => rfl
  | cons p entries ih =>
    obtain ⟨hp, hentries⟩ := List.forall_mem_cons.mp h
    have hfound : (w == m p.1) = (v == p.1) := by
      rw [Bool.eq_iff_iff, beq_iff_eq, beq_iff_eq, eq_comm, hp, eq_comm]
    rw [List.map_cons, List.lookup_cons, List.lookup_cons, hfound, ih hentries]

/-- A variable and its new name answer alike if no other variable of the allocation gets that
name. -/
theorem Within.answers_rename {a : Allocation} {vs : List Variable} (h : a.Within vs)
    {m : Variable → Variable} {v w : Variable} (hm : ∀ x ∈ vs, m x = w ↔ x = v) :
    (a.rename m).location? w = a.location? v ∧ (a.rename m).register? w = a.register? v ∧
      (a.rename m).offset? w = a.offset? v ∧ (a.rename m).isSpilled w = a.isSpilled v := by
  have hregister : (a.rename m).register? w = a.register? v :=
    lookup_rename fun p hp => hm p.1 (h.registers p hp)
  have hoffset : (a.rename m).offset? w = a.offset? v :=
    lookup_rename fun p hp => hm p.1 (h.offsets p hp)
  refine ⟨by rw [location?, hregister, hoffset, location?], hregister, hoffset, ?_⟩
  rw [Bool.eq_iff_iff, isSpilled, isSpilled, List.contains_iff_mem, List.contains_iff_mem]
  refine List.mem_map.trans ⟨?_, fun hv => ⟨v, hv, (hm v (h.spilled v hv)).mpr rfl⟩⟩
  rintro ⟨x, hx, hw⟩
  exact (hm x (h.spilled x hx)).mp hw ▸ hx

end Allocation

namespace Allocator

private theorem result_allocate (a : Allocator) (g : FlowGraph) (t : SymbolTable) :
    (a.allocate g t).result = (outcome a.pools g t).map Allocation.ofPlacements := by
  cases h : outcome a.pools g t with
  | error e =>
    rw [allocate_of_error h]
    rfl
  | ok placed =>
    rw [allocate_of_ok h]
    rfl

section Rename
variable {m : Variable → Variable} (hm : Function.Injective m) {S T : SymbolTable}
include hm

private theorem outcome_rename (pools : Pools) (function : String) {g : FlowGraph}
    (htypes : ∀ v ∈ g.vars.toList, S.SameType T v (m v)) :
    outcome pools (g.rename m function) T =
      (outcome pools g S).map (List.map (Placement.rename m)) := by
  rw [outcome, outcome, Node.ofFlow_rename pools function htypes]
  cases Node.ofFlow pools S g with
  | error e => rfl
  | ok nodes =>
    have hcolors : (ColoringRun.ofFlow pools (g.rename m function).analyze.1
        (nodes.map (Node.rename m))).colors =
          (ColoringRun.ofFlow pools g.analyze.1 nodes).colors := by
      simp only [ColoringRun.ofFlow, FlowGraph.analyze_rename, InterferenceGraph.ofFlow_rename,
        Removal.all_rename hm, Coloring.colors_rename]
    simp only [Except.map, hcolors, Placement.layout_rename]

private theorem run_rename {a b : Allocator} (hpools : a.pools = b.pools) {f g : Function}
    (hcode : g.code = f.code.map (Instruction.rename m))
    (htypes : ∀ v ∈ f.mentioned, S.SameType T v (m v)) :
    (b.run g T).2 = (a.run f S).2.map (Allocation.rename m) := by
  have hbuild := FlowGraph.build_rename hm hcode fun v hv => (htypes v hv).contains
  rw [run, hbuild, run]
  cases hflow : FlowGraph.build f S with
  | error e => rfl
  | ok flow =>
    have hvars : ∀ v ∈ flow.vars.toList, S.SameType T v (m v) :=
      fun v hv => htypes v (FlowGraph.mem_mentioned_of_ofBounds hflow hv)
    simp only [Except.map, result_allocate, ← hpools, outcome_rename hm a.pools g.name hvars]
    cases outcome a.pools flow S with
    | error e => rfl
    | ok placed => exact congrArg Except.ok (Allocation.ofPlacements_rename m placed)

end Rename

end Allocator

/-- `g` is `f` with other variables in the place of its own, which keep their types and do not
become equal. -/
structure Function.Renames (f g : Function) (m : Variable → Variable) (S T : SymbolTable) :
    Prop where
  code : g.code = f.code.map (Instruction.rename m)
  injective : ∀ v ∈ f.mentioned, ∀ w ∈ f.mentioned, m v = m w → v = w
  known : ∀ v ∈ f.mentioned, S.contains v = true ∧ T.contains (m v) = true
  types : ∀ v ∈ f.mentioned, T.type? (m v) = S.type? v

/-- The renaming `m` of the listed variables. All others go beyond `bound`. -/
def Variable.renameAmong (m : Variable → Variable) (vs : List Variable) (bound : Nat)
    (v : Variable) : Variable :=
  if v ∈ vs then m v else ⟨bound + v.handle⟩

private theorem Variable.renameAmong_injective {m : Variable → Variable} {vs : List Variable}
    {bound : Nat} (hinj : ∀ v ∈ vs, ∀ w ∈ vs, m v = m w → v = w)
    (hbound : ∀ v ∈ vs, (m v).handle < bound) :
    Function.Injective (renameAmong m vs bound) := by
  have hbeyond : ∀ v ∈ vs, ∀ w : Variable, m v ≠ ⟨bound + w.handle⟩ := by
    intro v hv w heq
    have hlt := hbound v hv
    simp only [heq] at hlt
    omega
  intro v w hvw
  unfold renameAmong at hvw
  by_cases hv : v ∈ vs
  · by_cases hw : w ∈ vs
    · rw [if_pos hv, if_pos hw] at hvw
      exact hinj v hv w hw hvw
    · rw [if_pos hv, if_neg hw] at hvw
      exact absurd hvw (hbeyond v hv w)
  · by_cases hw : w ∈ vs
    · rw [if_neg hv, if_pos hw] at hvw
      exact absurd hvw.symm (hbeyond w hw v)
    · rw [if_neg hv, if_neg hw, Variable.mk.injEq, Nat.add_left_cancel_iff] at hvw
      exact congrArg Variable.mk hvw

private theorem Variable.exists_injective_eq_on {m : Variable → Variable} {vs : List Variable}
    (hinj : ∀ v ∈ vs, ∀ w ∈ vs, m v = m w → v = w) :
    ∃ m', Function.Injective m' ∧ ∀ v ∈ vs, m' v = m v := by
  obtain ⟨bound, hbound⟩ : ∃ bound, ∀ v ∈ vs, (m v).handle < bound := by
    refine ⟨vs.toFinset.sup (fun v => (m v).handle) + 1, fun v hv => Nat.lt_succ_of_le ?_⟩
    exact Finset.le_sup (f := fun v => (m v).handle) (List.mem_toFinset.mpr hv)
  exact ⟨renameAmong m vs bound, renameAmong_injective hinj hbound, fun v hv => if_pos hv⟩

namespace Allocator

private theorem within_mentioned_of_run {a : Allocator} {f : Function} {t : SymbolTable}
    {r : Allocation} (h : (a.run f t).2 = .ok r) : r.Within f.mentioned := by
  obtain ⟨flow, hflow, hresult⟩ := (a.run_eq_ok_iff f t r).mp h
  obtain ⟨nodes, placed, hplaces, _, rfl⟩ := exists_places hresult
  apply Allocation.within_ofPlacements
  intro p hp
  have hmem : p.node.var ∈ flow.vars.toList := by
    rw [← hplaces.vars_eq]
    exact List.mem_map.mpr ⟨p, hp, rfl⟩
  exact FlowGraph.mem_mentioned_of_ofBounds hflow hmem

/-- Names, scopes, handles and other declarations make no difference to a run. -/
theorem run_renamed {f g : Function} {m : Variable → Variable} {S T : SymbolTable}
    (h : f.Renames g m S T) {a b : Allocator} (hpools : a.pools = b.pools) :
    (∃ e, (a.run f S).2 = .error e ∧ (b.run g T).2 = .error e) ∨
    ∃ r s, (a.run f S).2 = .ok r ∧ (b.run g T).2 = .ok s ∧ s.vars = r.vars.map m ∧
      (∀ v, v ∈ f.mentioned ∨ (∀ w ∈ f.mentioned, m w ≠ m v) →
        s.location? (m v) = r.location? v ∧ s.register? (m v) = r.register? v ∧
        s.offset? (m v) = r.offset? v ∧ s.isSpilled (m v) = r.isSpilled v) ∧
      s.area = r.area := by
  obtain ⟨m', hm, hsame⟩ := Variable.exists_injective_eq_on h.injective
  have hcode : g.code = f.code.map (Instruction.rename m') := by
    rw [h.code]
    refine List.map_congr_left fun i hi => Instruction.rename_congr fun v hv => ?_
    exact (hsame v (List.mem_flatMap.mpr ⟨i, hi, hv⟩)).symm
  have htypes : ∀ v ∈ f.mentioned, S.SameType T v (m' v) := by
    intro v hv
    rw [hsame v hv]
    exact .of_contains (h.known v hv) (h.types v hv)
  have hrun := run_rename hm hpools hcode htypes
  cases hr : (a.run f S).2 with
  | error e =>
    rw [hr] at hrun
    exact .inl ⟨e, rfl, hrun⟩
  | ok r =>
    rw [hr] at hrun
    have hwithin := within_mentioned_of_run hr
    refine .inr ⟨r, r.rename m', rfl, hrun, ?_, ?_, rfl⟩
    · exact List.map_congr_left fun v hv => hsame v (hwithin.vars v hv)
    · intro v hv
      refine hwithin.answers_rename fun x hx => ?_
      rw [hsame x hx]
      refine ⟨fun heq => ?_, fun heq => by rw [heq]⟩
      rcases hv with hv | hv
      · exact h.injective x hx v hv heq
      · exact absurd heq (hv x hx)

/-- Three variables of a table with eight declarations, in another order and under other names. -/
theorem spin_run_renamed :
    let m : Variable → Variable := fun v => ⟨7 - 2 * v.handle⟩
    let whirl : Function := ⟨"whirl", ⟨1⟩, spin.code.map (Instruction.rename m)⟩
    let table : SymbolTable := .ofDeclarations [⟨"x", .double, ⟨0⟩⟩, ⟨"x", .double, ⟨1⟩⟩,
      ⟨"y", .double, ⟨0⟩⟩, ⟨"y", .int, ⟨1⟩⟩, ⟨"z", .double, ⟨0⟩⟩, ⟨"z", .int, ⟨1⟩⟩,
      ⟨"a", .double, ⟨1⟩⟩, ⟨"b", .int, ⟨1⟩⟩] [none, some ⟨0⟩]
    let pools := Pools.standard.take 1 0
    spin.Renames whirl m spinTable table ∧
      ∃ r s, ((new pools).run spin spinTable).2 = .ok r ∧ ((new pools).run whirl table).2 = .ok s ∧
        s.vars = r.vars.map m ∧ (∀ v ∈ spin.mentioned, s.location? (m v) = r.location? v) ∧
        s.area = r.area := by
  intro m whirl table pools
  have hrenames : spin.Renames whirl m spinTable table :=
    ⟨rfl, by decide, by decide, by decide⟩
  have hpools : (new pools).pools = (new pools).pools := rfl
  refine ⟨hrenames, ?_⟩
  rcases run_renamed hrenames hpools with ⟨e, he, _⟩ | ⟨r, s, hr, hs, hvars, hlocation, harea⟩
  · obtain ⟨g, _, hvars, hcontains, hrun⟩ :=
      (new pools).exists_run_eq_allocate (f := spin) (t := spinTable) (by decide)
    have hlacks : spin.accessed.eraseDups.findSome? (pools.lacks? spinTable) = none := by decide
    have hverdict := (new pools).allocate_verdict hcontains
    rw [← hrun, he, hvars] at hverdict
    simp [new, hlacks] at hverdict
  · exact ⟨r, s, hr, hs, hvars, fun v hv => (hlocation v (.inl hv)).1, harea⟩

end Allocator

end RegisterColoring
