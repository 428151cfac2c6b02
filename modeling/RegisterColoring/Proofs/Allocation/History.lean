import RegisterColoring.Proofs.Allocation.Spills
import RegisterColoring.Proofs.Live.Passes
/-!
# Histories of an allocator

An allocator may have served any calls before, and a graph may have been through any analyses: a
run gives what a new allocator gives for the graph as it was built.
-/
namespace RegisterColoring

/-- What an allocator can be asked to do. -/
inductive Call
  | run (f : Function) (t : SymbolTable)
  | allocate (g : FlowGraph) (t : SymbolTable)
  | free (r : Register)

namespace Allocator

def serve (a : Allocator) : Call → Allocator
  | .run f t => (a.run f t).1
  | .allocate g t => (a.allocate g t).allocator
  | .free r => a.freeRegister r

def after (pools : Pools) (calls : List Call) : Allocator := calls.foldl serve (new pools)

private theorem outcome_bare (pools : Pools) (g : FlowGraph) (t : SymbolTable) :
    outcome pools g.bare t = outcome pools g t := by
  have hnodes : Node.ofFlow pools t g.bare = Node.ofFlow pools t g := rfl
  rw [outcome, hnodes, g.analyze_bare, outcome]

private theorem outcome_passes (pools : Pools) (g : FlowGraph) (passes : List FlowGraph.Pass)
    (t : SymbolTable) : outcome pools (passes.foldl FlowGraph.pass g) t = outcome pools g t := by
  rw [← outcome_bare, FlowGraph.bare_passes, outcome_bare]

private theorem noted_passes (pools : Pools) (g : FlowGraph) (passes : List FlowGraph.Pass)
    (t : SymbolTable) :
    Node.noted pools t (passes.foldl FlowGraph.pass g) = Node.noted pools t g := by
  have hbare : ∀ g : FlowGraph, Node.noted pools t g.bare = Node.noted pools t g := fun _ => rfl
  rw [← hbare, FlowGraph.bare_passes, hbare]

private theorem pools_allocate (a : Allocator) (g : FlowGraph) (t : SymbolTable) :
    (a.allocate g t).allocator.pools = a.pools := by
  cases h : outcome a.pools g t with
  | error e =>
    rw [allocate_of_error h]
    rfl
  | ok placed =>
    rw [allocate_of_ok h]
    rfl

private theorem pools_serve (a : Allocator) (c : Call) : (a.serve c).pools = a.pools := by
  cases c with
  | run f t =>
    simp only [serve, run]
    cases FlowGraph.build f t with
    | error e => rfl
    | ok g => exact a.pools_allocate g t
  | allocate g t => exact a.pools_allocate g t
  | free r => rfl

theorem pools_after (pools : Pools) (calls : List Call) : (after pools calls).pools = pools := by
  have hkept : ∀ a : Allocator, (calls.foldl serve a).pools = a.pools := by
    induction calls with
    | nil => exact fun _ => rfl
    | cons c calls ih => exact fun a => (ih (a.serve c)).trans (a.pools_serve c)
  exact hkept (new pools)

end Allocator

private theorem Allocation.countP_isSpilled {placed : List Placement}
    (hn : (placed.map fun p => p.node.var).Nodup) :
    (ofPlacements placed).vars.countP (ofPlacements placed).isSpilled =
      (Placement.spilled placed).length := by
  rw [List.countP_eq_length_filter, filter_isSpilled hn, ofPlacements, List.length_map]

namespace Allocator

private theorem settle_eq_of_pools {a b : Allocator} (h : a.pools = b.pools) (vars : Numbering)
    (placed : List Placement) : a.settle vars placed =
      { b.settle vars placed with totalSpills := (a.settle vars placed).totalSpills } := by
  simp only [settle, note, h]

private theorem vars_of_allocate {a : Allocator} {g : FlowGraph} {t : SymbolTable}
    {result : Allocation}
    (h : (a.allocate g t).result = .ok result) : result.vars = g.vars.toList := by
  obtain ⟨nodes, placed, hplaces, _, rfl⟩ := exists_places h
  exact hplaces.vars_eq

/-- A run gives the result of a new allocator for the graph as it was built, whatever the allocator
has served before and whatever the graph has been through. A success leaves everything as the new
allocator has it, except for the total of spills, to which it adds its own. A refused run leaves
the notes of the new allocator and nothing else. -/
theorem allocate_forgets_history (pools : Pools) (calls : List Call) {f : Function}
    {s : SymbolTable} {g : FlowGraph} (hg : g.Built f s) (passes : List FlowGraph.Pass)
    (t : SymbolTable) :
    let a := after pools calls
    let reused := a.allocate (passes.foldl FlowGraph.pass g) t
    let fresh := (new pools).allocate g t
    reused.result = fresh.result ∧
    (∀ result, reused.result = .ok result →
      reused.allocator.totalSpills = a.totalSpills + result.vars.countP result.isSpilled ∧
      reused.allocator =
        { fresh.allocator with totalSpills := reused.allocator.totalSpills }) ∧
    ∀ e, reused.result = .error e →
      reused.allocator.totalSpills = a.totalSpills ∧
      reused.allocator =
        { a with
          vars := fresh.allocator.vars
          files := fresh.allocator.files
          sizes := fresh.allocator.sizes } := by
  intro a reused fresh
  have hpools : a.pools = pools := pools_after pools calls
  have hvars := FlowGraph.vars_passes passes g
  have hsame : outcome a.pools (passes.foldl FlowGraph.pass g) t = outcome pools g t := by
    rw [outcome_passes, hpools]
  cases houtcome : outcome pools g t with
  | error e =>
    have hreused : reused = _ := allocate_of_error (hsame.trans houtcome)
    have hfresh : fresh = _ := allocate_of_error (a := new pools) houtcome
    have hnoted : Node.noted a.pools t (passes.foldl FlowGraph.pass g) =
        Node.noted pools t g := by rw [noted_passes, hpools]
    rw [hreused, hfresh]
    refine ⟨rfl, ?_, ?_⟩
    · intro result hok
      cases hok
    · intro e' _
      refine ⟨rfl, ?_⟩
      rw [hvars, hnoted]
      rfl
  | ok placed =>
    have hreused : reused = _ := allocate_of_ok (hsame.trans houtcome)
    have hfresh : fresh = _ := allocate_of_ok (a := new pools) houtcome
    obtain ⟨_, hdescribes⟩ := hg.describes
    have hlisted : (placed.map fun p => p.node.var) = g.vars.toList :=
      vars_of_allocate (congrArg Run.result hfresh)
    have hn : (placed.map fun p => p.node.var).Nodup := hlisted ▸ hdescribes.nodup
    rw [hreused, hfresh]
    refine ⟨rfl, ?_, ?_⟩
    · intro result hok
      obtain rfl := Except.ok.inj hok
      refine ⟨?_, ?_⟩
      · rw [Allocation.countP_isSpilled hn]
        rfl
      · rw [hvars]
        exact settle_eq_of_pools hpools g.vars placed
    · intro e herror
      cases herror

def pairTable : SymbolTable :=
  .ofDeclarations [⟨"a", .int, ⟨0⟩⟩, ⟨"b", .int, ⟨0⟩⟩, ⟨"x", .float, ⟨0⟩⟩] [none]

/-- Without floating point registers, refused at the last of its variables. -/
def mixed : Function where
  name := "g"
  scope := ⟨0⟩
  code := [
    ⟨none, .assign, [.var ⟨1⟩, .literal "1"]⟩,
    ⟨none, .assign, [.var ⟨0⟩, .var ⟨1⟩]⟩,
    ⟨none, .assign, [.var ⟨2⟩, .literal "1.0"]⟩,
    ⟨none, .ret, [.var ⟨2⟩]⟩]

/-- After a run that spilled, an eviction and a run that was refused halfway, the notes are of two
variables and the area is not empty. The graph was analysed before. -/
theorem spin_allocate_forgets_history : ∃ g result, FlowGraph.build spin spinTable = .ok g ∧
    let pools := Pools.standard.take 2 0
    let a := after pools [.run spin spinTable, .free ⟨0, .general⟩, .run mixed pairTable]
    let reused := a.allocate ([.both, .sets].foldl FlowGraph.pass g) spinTable
    a.files = #[.general, .general] ∧ a.nextSlot = 4 ∧
    ((new pools).allocate g spinTable).result = .ok result ∧ reused.result = .ok result ∧
    a.totalSpills = 1 ∧ reused.allocator.totalSpills = 2 := by
  let pools := Pools.standard.take 2 0
  let calls : List Call := [.run spin spinTable, .free ⟨0, .general⟩, .run mixed pairTable]
  obtain ⟨g, hg, hpass, hfiles, hslot, hbefore, hcount⟩ :
      ∃ g, FlowGraph.build spin spinTable = .ok g ∧
      (∀ v ∈ g.vars.toList, Node.Passes pools spinTable v) ∧
      (after pools calls).files = #[.general, .general] ∧ (after pools calls).nextSlot = 4 ∧
      (after pools calls).totalSpills = 1 ∧
      ((new pools).allocate g spinTable).result.toOption.map
        (fun result => result.vars.countP result.isSpilled) = some 1 :=
    ⟨_, rfl, by decide +kernel, by decide +kernel, by decide +kernel, by decide +kernel,
      by decide +kernel⟩
  obtain ⟨result, h⟩ := exists_allocate (a := new pools) hpass
  obtain ⟨hsame, hok, _⟩ :=
    allocate_forgets_history pools calls (.build hg) [.both, .sets] spinTable
  have hreused := hsame.trans h
  rw [h] at hcount
  have hspilled : result.vars.countP result.isSpilled = 1 := Option.some.inj hcount
  have htotal := (hok result hreused).1
  rw [hbefore, hspilled] at htotal
  exact ⟨g, result, hg, hfiles, hslot, h, hreused, hbefore, htotal⟩

end Allocator

end RegisterColoring
