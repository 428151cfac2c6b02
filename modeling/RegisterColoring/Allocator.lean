import RegisterColoring.Allocation
import RegisterColoring.Coloring.Select
import RegisterColoring.Flow.Build
import RegisterColoring.Interference.OfFlow
import RegisterColoring.Live.Intervals
/-!
# The allocator

An allocator serves one function after the other. Between runs it can be asked where
the variables of the last run are and what its registers hold.
-/
namespace RegisterColoring

abbrev RegisterTable := List (Register × RegisterDescriptor)

namespace RegisterTable

def free (pools : Pools) : RegisterTable :=
  (pools.general ++ pools.float).eraseDups.map fun r => (r, .empty)

def occupy (t : RegisterTable) (r : Register) (id : Nat) : RegisterTable :=
  if t.any fun e => e.1 = r then t.map fun e => if e.1 = r then (e.1, e.2.add id) else e
  else t ++ [(r, RegisterDescriptor.empty.add id)]

def vacate (t : RegisterTable) (r : Register) : RegisterTable :=
  t.map fun e => if e.1 = r then (e.1, .empty) else e

end RegisterTable

/-- What an allocator keeps from run to run. -/
structure Allocator where
  pools : Pools
  /-- Variables spilled in all runs together. -/
  totalSpills : Nat
  /-- The numbering of the last run that was tried. -/
  vars : Numbering
  /-- Register files by identifier, as far as that run noted them. -/
  files : Array RegisterClass
  /-- Bytes by identifier, as far as that run noted them. -/
  sizes : Array Nat
  /-- Descriptors by identifier, from the last run that succeeded. -/
  variableTable : Array VariableDescriptor
  /-- Descriptors by register, from the last run that succeeded. -/
  registerTable : RegisterTable
  /-- Where the next slot of the spill area begins. -/
  nextSlot : Nat

structure Run where
  allocator : Allocator
  flow : FlowGraph
  result : Except AllocError Allocation

structure ColoringRun where
  graph : InterferenceGraph
  removals : List Removal
  colors : Colors

def ColoringRun.ofFlow (pools : Pools) (g : FlowGraph) (nodes : List Node) : ColoringRun :=
  let graph := InterferenceGraph.ofFlow g
  let removals := Removal.all pools graph nodes
  { graph, removals, colors := Coloring.colors pools graph removals }

namespace Allocator

def new (pools : Pools) : Allocator := ⟨pools, 0, .empty, #[], #[], #[], [], 0⟩

/-- Note the file and the size of each variable, up to one that is refused. -/
def measure (t : SymbolTable) (function : String) :
    List Variable → Allocator → Allocator × Option AllocError
  | [], a => (a, none)
  | v :: rest, a =>
    match Node.ofVariable a.pools t function a.files.size v with
    | .error e => (a, some e)
    | .ok n =>
      measure t function rest
        { a with files := a.files.push n.file, sizes := a.sizes.push n.size }

/-- Start a run over the variables of a flow graph. A run that is refused here leaves the tables
of the last one, but not its numbering. -/
def reset (a : Allocator) (g : FlowGraph) (t : SymbolTable) : Allocator × Option AllocError :=
  let a := { a with vars := g.vars, files := #[], sizes := #[] }
  match measure t g.function a.vars.toList a with
  | (a, some e) => (a, some e)
  | (a, none) =>
    ({ a with
      variableTable := Array.replicate a.vars.size .empty
      registerTable := .free a.pools
      nextSlot := 0 }, none)

def node (a : Allocator) (id : Nat) (v : Variable) : Except AllocError Node :=
  match a.files[id]?, a.sizes[id]? with
  | some file, some size => .ok ⟨id, v, file, size⟩
  | _, _ => .error (.fault .outOfRange)

def nodes (a : Allocator) : Except AllocError (List Node) :=
  a.vars.toList.zipIdx.mapM fun p => a.node p.2 p.1

def place (a : Allocator) (n : Node) : Color → Allocator
  | .register r =>
    { a with
      variableTable := a.variableTable.modify n.id (·.add (.register r))
      registerTable := a.registerTable.occupy r n.id }
  | .spilled =>
    { a with
      nextSlot := a.nextSlot + n.size
      variableTable := a.variableTable.modify n.id (·.add (.memory a.nextSlot))
      totalSpills := a.totalSpills + 1 }

def placeAll (colors : Colors) : List Node → Allocator → Allocator × Option AllocError
  | [], a => (a, none)
  | n :: rest, a =>
    match colors[n.id]? with
    | none => (a, some (.fault .unplaced))
    | some c =>
      if n.id < a.variableTable.size then placeAll colors rest (a.place n c)
      else (a, some (.fault .outOfRange))

/-- The result that the tables of a run hold. -/
def collect (a : Allocator) : Allocation :=
  (a.vars.toList.zip a.variableTable.toList).foldl (fun result p => result.record p.1 p.2)
    (.empty a.nextSlot)

/-- Allocate the variables of a flow graph, whose live sets are found again. -/
def allocate (a : Allocator) (g : FlowGraph) (t : SymbolTable) : Run :=
  match a.reset g t with
  | (a, some e) => ⟨a, g, .error e⟩
  | (a, none) =>
    let flow := g.analyze.1
    match a.nodes with
    | .error e => ⟨a, flow, .error e⟩
    | .ok nodes =>
      match placeAll (ColoringRun.ofFlow a.pools flow nodes).colors nodes a with
      | (a, some e) => ⟨a, flow, .error e⟩
      | (a, none) => ⟨a, flow, .ok a.collect⟩

def run (a : Allocator) (f : Function) (t : SymbolTable) :
    Allocator × Except AllocError Allocation :=
  match FlowGraph.build f t with
  | .error e => (a, .error e)
  | .ok g =>
    let r := a.allocate g t
    (r.allocator, r.result)

def variableDescriptor? (a : Allocator) (v : Variable) : Option VariableDescriptor :=
  (a.vars.id? v).bind fun id => a.variableTable[id]?

def registerDescriptor? (a : Allocator) (r : Register) : Option RegisterDescriptor :=
  a.registerTable.lookup r

/-- Evict every variable from a register. -/
def freeRegister (a : Allocator) (r : Register) : Allocator :=
  let occupants := ((a.registerDescriptor? r).map RegisterDescriptor.ids).getD []
  let evict := fun (ds : Array VariableDescriptor) id => ds.modify id (·.remove (.register r))
  { a with
    variableTable := occupants.foldl evict a.variableTable
    registerTable := a.registerTable.vacate r }

end Allocator

end RegisterColoring
