import RegisterColoring.Allocator
import RegisterColoring.Proofs.Allocation.Placement
import RegisterColoring.Proofs.Coloring.Colors
/-!
# The phases of a run

A run overwrites everything that it reads: the nodes it colors are those of its own graph, the
slots begin at 0, and the result that it collects lists the places of this run alone.
-/
namespace RegisterColoring

namespace Node

/-- The nodes before the first variable that is refused, and why it is. -/
def survey (pools : Pools) (t : SymbolTable) (function : String) :
    Nat → List Variable → List Node × Option AllocError
  | _, [] => ([], none)
  | id, v :: rest =>
    match ofVariable pools t function id v with
    | .error e => ([], some e)
    | .ok n =>
      (n :: (survey pools t function (id + 1) rest).1, (survey pools t function (id + 1) rest).2)

def noted (pools : Pools) (t : SymbolTable) (g : FlowGraph) : List Node :=
  (survey pools t g.function 0 g.vars.toList).1

private theorem mapM_ofVariable (pools : Pools) (t : SymbolTable) (function : String) (id : Nat)
    (vars : List Variable) :
    (vars.zipIdx id).mapM (fun p => ofVariable pools t function p.2 p.1) =
      (survey pools t function id vars).2.elim (.ok (survey pools t function id vars).1)
        .error := by
  induction vars generalizing id with
  | nil => rfl
  | cons v rest ih =>
    rw [List.zipIdx_cons, List.mapM_cons, ih, survey]
    cases ofVariable pools t function id v with
    | error e => rfl
    | ok n => cases (survey pools t function (id + 1) rest).2 <;> rfl

private theorem survey_of_error {pools : Pools} {t : SymbolTable} {g : FlowGraph} {e : AllocError}
    (h : ofFlow pools t g = .error e) :
    survey pools t g.function 0 g.vars.toList = (noted pools t g, some e) := by
  rw [ofFlow, mapM_ofVariable] at h
  cases hfound : (survey pools t g.function 0 g.vars.toList).2 with
  | none =>
    rw [hfound] at h
    cases h
  | some e' =>
    rw [hfound] at h
    rw [← Except.error.inj h]
    exact Prod.ext rfl hfound

private theorem survey_of_ok {pools : Pools} {t : SymbolTable} {g : FlowGraph} {nodes : List Node}
    (h : ofFlow pools t g = .ok nodes) :
    survey pools t g.function 0 g.vars.toList = (nodes, none) := by
  rw [ofFlow, mapM_ofVariable] at h
  cases hfound : (survey pools t g.function 0 g.vars.toList).2 with
  | some e =>
    rw [hfound] at h
    cases h
  | none =>
    rw [hfound] at h
    exact Prod.ext (Except.ok.inj h) hfound

end Node

def RegisterTable.enter (t : RegisterTable) (p : Placement) : RegisterTable :=
  match p.location with
  | .register r => t.occupy r p.node.id
  | .memory _ => t

namespace Allocator

/-- The allocator with the numbering of a run and what the run noted of its variables. -/
def note (a : Allocator) (vars : Numbering) (nodes : List Node) : Allocator :=
  { a with
    vars
    files := (nodes.map Node.file).toArray
    sizes := (nodes.map Node.size).toArray }

/-- The allocator when the variables have passed. -/
def ready (a : Allocator) (vars : Numbering) (nodes : List Node) : Allocator :=
  { a.note vars nodes with
    variableTable := Array.replicate vars.size .empty
    registerTable := .free a.pools
    nextSlot := 0 }

/-- The allocator after a run that gave these places to the variables of a numbering. -/
def settle (a : Allocator) (vars : Numbering) (placed : List Placement) : Allocator :=
  { a.note vars (placed.map Placement.node) with
    totalSpills := a.totalSpills + (Placement.spilled placed).length
    variableTable := (placed.map fun p => VariableDescriptor.empty.add p.location).toArray
    registerTable := placed.foldl RegisterTable.enter (.free a.pools)
    nextSlot := (Placement.spilled placed).foldl (fun bytes n => bytes + n.size) 0 }

private theorem measure_eq (t : SymbolTable) (function : String) (vars : List Variable)
    (a : Allocator) :
    measure t function vars a =
      let found := Node.survey a.pools t function a.files.size vars
      ({ a with
        files := a.files ++ (found.1.map Node.file).toArray
        sizes := a.sizes ++ (found.1.map Node.size).toArray }, found.2) := by
  induction vars generalizing a with
  | nil => simp [measure, Node.survey]
  | cons v rest ih =>
    rw [measure, Node.survey]
    cases Node.ofVariable a.pools t function a.files.size v with
    | error e => simp
    | ok n => simp [ih]

private theorem reset_of_error {a : Allocator} {g : FlowGraph} {t : SymbolTable} {e : AllocError}
    (h : Node.ofFlow a.pools t g = .error e) :
    a.reset g t = (a.note g.vars (Node.noted a.pools t g), some e) := by
  rw [reset, measure_eq]
  simp [Node.survey_of_error h, note]

/-- A run that is not refused starts with its own nodes, clear tables and no slots. -/
theorem reset_of_ok {a : Allocator} {g : FlowGraph} {t : SymbolTable} {nodes : List Node}
    (h : Node.ofFlow a.pools t g = .ok nodes) :
    a.reset g t = (a.ready g.vars nodes, none) := by
  rw [reset, measure_eq]
  simp [Node.survey_of_ok h, ready, note]

private theorem nodes_ready (a : Allocator) {g : FlowGraph} {t : SymbolTable} {ns : List Node}
    (h : Node.Lists t g ns) : (a.ready g.vars ns).nodes = .ok ns := by
  rw [nodes, mapM_eq_ok_iff, List.forall₂_iff_get]
  refine ⟨by rw [List.length_zipIdx, ready, note, ← h.vars, List.length_map], ?_⟩
  intro k hk hk'
  obtain ⟨hid, hvar⟩ := h.getElem? (List.getElem?_eq_getElem hk')
  obtain ⟨_, hget⟩ := List.getElem?_eq_some_iff.mp hvar
  have hnode : (⟨k, ns[k].var, ns[k].file, ns[k].size⟩ : Node) = ns[k] :=
    congrArg (fun id => (⟨id, ns[k].var, ns[k].file, ns[k].size⟩ : Node)) hid.symm
  simp [node, ready, note, hk', hget, hnode]

theorem nodes_reset {a : Allocator} {g : FlowGraph} {t : SymbolTable} {ns : List Node}
    (h : Node.ofFlow a.pools t g = .ok ns) : (a.reset g t).1.nodes = .ok ns := by
  rw [reset_of_ok h]
  exact a.nodes_ready (Node.ofFlow_lists h)

private theorem place_eq (a : Allocator) (n : Node) (c : Color) :
    a.place n c =
      { a with
        totalSpills := a.totalSpills + (Placement.spilled [⟨n, c.place a.nextSlot⟩]).length
        variableTable := a.variableTable.modify n.id (·.add (c.place a.nextSlot))
        registerTable := a.registerTable.enter ⟨n, c.place a.nextSlot⟩
        nextSlot := a.nextSlot + c.bytes n } := by
  cases c <;> rfl

private theorem modify_written (written : Array VariableDescriptor) (count : Nat) (l : Location) :
    (written ++ Array.replicate (count + 1) VariableDescriptor.empty).modify written.size
        (·.add l) =
      written.push (VariableDescriptor.empty.add l) ++ Array.replicate count .empty := by
  apply Array.ext_getElem?
  intro k
  rw [Array.getElem?_modify]
  rcases Nat.lt_trichotomy k written.size with hk | rfl | hk
  · grind
  · grind
  · grind

/-- Nodes whose identifiers count on from the descriptors that are written already are all placed,
as the layout places them. -/
private theorem placeAll_of_layout {colors : Colors} {nodes : List Node} {placed : List Placement}
    {a : Allocator} (written : Array VariableDescriptor)
    (hids : nodes.map Node.id = List.range' written.size nodes.length)
    (htable : a.variableTable = written ++ Array.replicate nodes.length .empty)
    (h : Placement.layout colors a.nextSlot nodes = .ok placed) :
    placeAll colors nodes a =
      ({ a with
        totalSpills := a.totalSpills + (Placement.spilled placed).length
        variableTable :=
          written ++ (placed.map fun p => VariableDescriptor.empty.add p.location).toArray
        registerTable := placed.foldl RegisterTable.enter a.registerTable
        nextSlot := (Placement.spilled placed).foldl (fun bytes n => bytes + n.size) a.nextSlot },
        none) := by
  induction nodes generalizing a written placed with
  | nil =>
    obtain rfl := Except.ok.inj h
    have hwritten : a.variableTable = written := by simpa using htable
    simp [placeAll, ← hwritten]
  | cons n rest ih =>
    obtain ⟨c, tail, hc, htail, rfl⟩ := (Placement.layout_cons_eq_ok_iff _ _ _ _ _).mp h
    rw [List.map_cons, List.length_cons, List.range'_succ, List.cons.injEq] at hids
    have hlt : n.id < a.variableTable.size := by
      rw [htable, hids.1]
      simp
    have hmodified : (a.place n c).variableTable =
        written.push (VariableDescriptor.empty.add (c.place a.nextSlot)) ++
          Array.replicate rest.length .empty := by
      rw [place_eq]
      simp only
      rw [htable, hids.1, List.length_cons, modify_written]
    have hslot : (a.place n c).nextSlot = a.nextSlot + c.bytes n := by rw [place_eq]
    rw [placeAll, hc]
    simp only
    rw [if_pos hlt, ih _ (by simpa using hids.2) hmodified (hslot ▸ htail), place_eq]
    cases c <;> simp [Color.place, Color.bytes, Nat.add_assoc, Nat.add_comm]

private theorem record_add (result : Allocation) (v : Variable) (l : Location) :
    result.record v (VariableDescriptor.empty.add l) =
      { result with
        vars := result.vars ++ [v]
        registers := result.registers ++ (l.register?.map fun r => (v, r)).toList
        spilled := result.spilled ++ (l.memory?.map fun _ => v).toList
        offsets := result.offsets ++ (l.memory?.map fun offset => (v, offset)).toList } := by
  cases l <;> simp [Allocation.record, VariableDescriptor.empty, VariableDescriptor.add,
    VariableDescriptor.register?, VariableDescriptor.memory?, Location.register?, Location.memory?]

private theorem foldl_record (placed : List Placement) (result : Allocation) :
    placed.foldl (fun result p =>
      result.record p.node.var (VariableDescriptor.empty.add p.location)) result =
    let collected := Allocation.ofPlacements placed
    { result with
      vars := result.vars ++ collected.vars
      registers := result.registers ++ collected.registers
      spilled := result.spilled ++ collected.spilled
      offsets := result.offsets ++ collected.offsets } := by
  induction placed generalizing result with
  | nil => simp [Allocation.ofPlacements]
  | cons p placed ih =>
    rw [List.foldl_cons, ih, record_add]
    obtain ⟨n, l⟩ := p
    cases l <;> simp [Allocation.ofPlacements, Location.register?, Location.memory?]

private theorem collect_settle (a : Allocator) {vars : Numbering} {placed : List Placement}
    (h : (placed.map fun p => p.node.var) = vars.toList) :
    (a.settle vars placed).collect = .ofPlacements placed := by
  have hzip : (a.settle vars placed).vars.toList.zip (a.settle vars placed).variableTable.toList =
      placed.map fun p => (p.node.var, VariableDescriptor.empty.add p.location) := by
    rw [settle, note]
    simp only
    rw [← h, List.zip_map']
  rw [collect, hzip, List.foldl_map, foldl_record]
  simp [Allocation.empty, Allocation.ofPlacements, settle]

/-- The places that a run gives to the variables of a graph. -/
def outcome (pools : Pools) (g : FlowGraph) (t : SymbolTable) :
    Except AllocError (List Placement) :=
  match Node.ofFlow pools t g with
  | .error e => .error e
  | .ok nodes => Placement.layout (ColoringRun.ofFlow pools g.analyze.1 nodes).colors 0 nodes

theorem outcome_eq_ok_iff (pools : Pools) (g : FlowGraph) (t : SymbolTable)
    (placed : List Placement) :
    outcome pools g t = .ok placed ↔ ∃ nodes, Node.ofFlow pools t g = .ok nodes ∧
      Placement.layout (ColoringRun.ofFlow pools g.analyze.1 nodes).colors 0 nodes =
        .ok placed := by
  unfold outcome
  cases Node.ofFlow pools t g <;> simp

/-- Only the variables can be to blame: the coloring leaves no node without a place. -/
theorem outcome_eq_error_iff (pools : Pools) (g : FlowGraph) (t : SymbolTable) (e : AllocError) :
    outcome pools g t = .error e ↔ Node.ofFlow pools t g = .error e := by
  unfold outcome
  cases hnodes : Node.ofFlow pools t g with
  | error e' => simp
  | ok ns =>
    let graph := InterferenceGraph.ofFlow g.analyze.1
    have hperm := Removal.all_perm pools graph (Node.ofFlow_lists hnodes).nodup
    obtain ⟨hcolored, _⟩ := Coloring.colors_spec pools graph (Removal.all pools graph ns)
    obtain ⟨placed, hplaced⟩ : ∃ placed,
        Placement.layout (ColoringRun.ofFlow pools g.analyze.1 ns).colors 0 ns = .ok placed :=
      Placement.exists_layout (fun n hn => hcolored n (hperm.mem_iff.mpr hn)) 0
    simp [hplaced]

/-- A refused run has noted the variables in front of the one that is to blame, and nothing
else. -/
theorem allocate_of_error {a : Allocator} {g : FlowGraph} {t : SymbolTable} {e : AllocError}
    (h : outcome a.pools g t = .error e) :
    a.allocate g t = ⟨a.note g.vars (Node.noted a.pools t g), g, .error e⟩ := by
  rw [allocate, reset_of_error ((outcome_eq_error_iff _ _ _ _).mp h)]

/-- A successful run leaves nothing of the runs before it but their spills in the total. -/
theorem allocate_of_ok {a : Allocator} {g : FlowGraph} {t : SymbolTable} {placed : List Placement}
    (h : outcome a.pools g t = .ok placed) :
    a.allocate g t = ⟨a.settle g.vars placed, g.analyze.1, .ok (.ofPlacements placed)⟩ := by
  obtain ⟨ns, hns, hlayout⟩ := (outcome_eq_ok_iff _ _ _ _).mp h
  have hlists := Node.ofFlow_lists hns
  have hplaces := Placement.layout_laidOut hlayout
  have hids : ns.map Node.id = List.range' 0 ns.length := by
    rw [hlists.ids, hlists.length_eq, List.range_eq_range']
  have htable : (a.ready g.vars ns).variableTable =
      #[] ++ Array.replicate ns.length VariableDescriptor.empty := by
    simp [ready, hlists.length_eq]
  have hplaced : placeAll (ColoringRun.ofFlow a.pools g.analyze.1 ns).colors ns
      (a.ready g.vars ns) = (a.settle g.vars placed, none) := by
    refine (placeAll_of_layout #[] hids htable hlayout).trans ?_
    simp [ready, settle, note, hplaces.nodes_eq]
  have hvars : (placed.map fun p => p.node.var) = g.vars.toList := by
    rw [← hlists.vars, ← hplaces.nodes_eq, List.map_map]
    rfl
  have hpools : (a.ready g.vars ns).pools = a.pools := rfl
  simp only [allocate, reset_of_ok hns, a.nodes_ready hlists, hpools, hplaced,
    a.collect_settle hvars]

end Allocator

end RegisterColoring
