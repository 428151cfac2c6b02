import RegisterColoring.Proofs.Flow.Buildable
/-!
# Flow graphs of renamed functions

A renaming gives other handles to the variables of a function. Blocks, edges and identifiers do
not depend on handles, so the renamed function has the same flow graph with renamed variables.
-/
namespace RegisterColoring

namespace Operand

def rename (m : Variable → Variable) : Operand → Operand
  | .label name => .label name
  | .literal text => .literal text
  | .var v => .var (m v)
  | .member base field => .member (m base) field
  | .element base index => .element (m base) (index.rename m)

private theorem reads_rename (m : Variable → Variable) (o : Operand) :
    (o.rename m).reads = o.reads.map m := by
  induction o with
  | element base index ih => simp [rename, reads, ih]
  | _ => rfl

private theorem stored_rename (m : Variable → Variable) (o : Operand) :
    (o.rename m).stored = o.stored.map m := by
  cases o <;> rfl

private theorem storeReads_rename (m : Variable → Variable) (o : Operand) :
    (o.rename m).storeReads = o.storeReads.map m := by
  cases o with
  | element base index => exact reads_rename m (.element base index)
  | _ => rfl

private theorem rename_congr {m m' : Variable → Variable} {o : Operand}
    (h : ∀ v ∈ o.reads, m v = m' v) : o.rename m = o.rename m' := by
  induction o with
  | element base index ih =>
    obtain ⟨hbase, hindex⟩ := List.forall_mem_cons.mp h
    rw [rename, rename, hbase, ih hindex]
  | var v => rw [rename, rename, h v (by simp [reads])]
  | member base field => rw [rename, rename, h base (by simp [reads])]
  | _ => rfl

end Operand

namespace Instruction
variable (m : Variable → Variable) (i : Instruction)

def rename : Instruction := { i with operands := i.operands.map (Operand.rename m) }

private theorem viewAt_rename {view : Operand → List Variable}
    (hview : ∀ o, view (o.rename m) = (view o).map m) (k : Nat) :
    ((i.rename m).operands[k]?.map view).getD [] = ((i.operands[k]?.map view).getD []).map m := by
  rw [rename, List.getElem?_map]
  cases i.operands[k]? with
  | none => rfl
  | some o => exact hview o

private theorem readsAt_rename (k : Nat) : (i.rename m).readsAt k = (i.readsAt k).map m :=
  i.viewAt_rename m (Operand.reads_rename m) k

private theorem storedAt_rename (k : Nat) : (i.rename m).storedAt k = (i.storedAt k).map m :=
  i.viewAt_rename m (Operand.stored_rename m) k

private theorem storeReadsAt_rename (k : Nat) :
    (i.rename m).storeReadsAt k = (i.storeReadsAt k).map m :=
  i.viewAt_rename m (Operand.storeReads_rename m) k

private theorem opcode_rename : (i.rename m).opcode = i.opcode := rfl

private theorem defs_rename : (i.rename m).defs = i.defs.map m := by
  unfold defs
  rw [opcode_rename]
  split
  all_goals simp only [storedAt_rename, List.map_nil]

private theorem uses_rename : (i.rename m).uses = i.uses.map m := by
  unfold uses
  rw [opcode_rename]
  split
  all_goals simp only [readsAt_rename, storeReadsAt_rename, List.map_append, List.map_nil]

private theorem accesses_rename : (i.rename m).accesses = i.accesses.map fun p => (p.1, m p.2) := by
  simp [accesses, defs_rename, uses_rename, Function.comp_def]

private theorem jumpTarget_rename : (i.rename m).jumpTarget = i.jumpTarget := by
  unfold jumpTarget
  rw [opcode_rename]
  split
  · cases i.opcode.labelOperand with
    | none => rfl
    | some k =>
      simp only [Option.bind_some, rename, List.getElem?_map]
      cases i.operands[k]? with
      | none => rfl
      | some o => cases o <;> rfl
  · rfl

theorem rename_congr {m m' : Variable → Variable} {i : Instruction}
    (h : ∀ v ∈ i.operands.flatMap Operand.reads, m v = m' v) : i.rename m = i.rename m' := by
  have hoperands : i.operands.map (Operand.rename m) = i.operands.map (Operand.rename m') := by
    refine List.map_congr_left fun o ho => Operand.rename_congr fun v hv => h v ?_
    exact List.mem_flatMap.mpr ⟨o, ho, hv⟩
  rw [rename, rename, hoperands]

end Instruction

section Code
variable (m : Variable → Variable) (code : List Instruction)

private theorem Bounds.partitionFrom_rename (first line : Nat) :
    partitionFrom first line (code.map (Instruction.rename m)) = partitionFrom first line code := by
  induction code generalizing first line with
  | nil => rfl
  | cons i rest ih =>
    have hhead : (rest.map (Instruction.rename m)).head?.any Instruction.hasLabel =
        rest.head?.any Instruction.hasLabel := by
      cases rest <;> rfl
    rw [List.map_cons, partitionFrom, partitionFrom, hhead, List.isEmpty_map, ih, ih]
    rfl

private theorem Block.ofBounds_rename (b : Bounds) :
    ofBounds (code.map (Instruction.rename m)) b = ofBounds code b := by
  have hlabel : ((code.map (Instruction.rename m))[b.first]?.filter Instruction.hasLabel).bind
      (·.label) = (code[b.first]?.filter Instruction.hasLabel).bind (·.label) := by
    rw [List.getElem?_map]
    cases code[b.first]? with
    | none => rfl
    | some i =>
      have hlabelled : (i.rename m).hasLabel = i.hasLabel := rfl
      simp only [Option.map_some, Option.filter_some, hlabelled]
      split <;> rfl
  unfold ofBounds
  rw [hlabel]

namespace Links
variable (blocks : List Block)

private theorem exitBlock_rename :
    exitBlock (code.map (Instruction.rename m)) blocks = exitBlock code blocks := by
  have hends : ∀ line : Nat, (code.map (Instruction.rename m))[line]?.any
      (fun i : Instruction => i.opcode = .funcEnd) =
        code[line]?.any fun i : Instruction => i.opcode = .funcEnd := by
    intro line
    rw [List.getElem?_map, Option.any_map]
    rfl
  simp only [exitBlock, hends]

private theorem targets_rename (id : Nat) (b : Block) :
    targets (code.map (Instruction.rename m)) blocks id b = targets code blocks id b := by
  have htarget : target? (code.map (Instruction.rename m)) b = target? code b := by
    rw [target?, target?, List.getElem?_map]
    cases code[b.last]? with
    | none => rfl
    | some i => exact i.jumpTarget_rename m
  have hopcode : (code.map (Instruction.rename m))[b.last]?.map Instruction.opcode =
      code[b.last]?.map Instruction.opcode := by
    rw [List.getElem?_map, Option.map_map]
    rfl
  rw [targets, targets, htarget, hopcode, exitBlock_rename]

private theorem edges_rename :
    edges (code.map (Instruction.rename m)) blocks = edges code blocks := by
  simp only [edges, targets_rename]

end Links

end Code

namespace Numbering

def rename (m : Variable → Variable) (n : Numbering) : Numbering := ⟨n.vars.map m⟩

private theorem rename_empty (m : Variable → Variable) : empty.rename m = empty := by
  simp [rename, empty]

theorem size_rename (m : Variable → Variable) (n : Numbering) : (n.rename m).size = n.size :=
  Array.size_map

theorem toList_rename (m : Variable → Variable) (n : Numbering) :
    (n.rename m).toList = n.toList.map m :=
  Array.toList_map

private theorem id?_rename {m : Variable → Variable} (hm : Function.Injective m) (n : Numbering)
    (v : Variable) : (n.rename m).id? (m v) = n.id? v := by
  have hsame : (fun w => m w == m v) = fun w => w == v := by
    funext w
    rw [Bool.eq_iff_iff, beq_iff_eq, beq_iff_eq, hm.eq_iff]
  rw [id?_eq, id?_eq, toList_rename, List.idxOf?, List.idxOf?, List.findIdx?_map]
  exact congrArg (n.toList.findIdx? ·) hsame

private theorem intern_rename {m : Variable → Variable} (hm : Function.Injective m) (n : Numbering)
    (v : Variable) : (n.rename m).intern (m v) = ((n.intern v).1, (n.intern v).2.rename m) := by
  unfold intern
  rw [id?_rename hm]
  cases n.id? v with
  | some id => rfl
  | none => simp [rename, size]

end Numbering

namespace Recorded
variable {m : Variable → Variable} (hm : Function.Injective m) {S T : SymbolTable}

def rename {α : Type} (m : Variable → Variable) (r : Recorded α) : Recorded α :=
  { r with vars := r.vars.rename m }

include hm

private theorem accesses_rename {function function' : String} {line : Nat}
    {todo : List (Access × Variable)}
    (hknown : ∀ p ∈ todo, S.contains p.2 = true ∧ T.contains (m p.2) = true) (vars : Numbering)
    (b : Block) :
    accesses T function' line (todo.map fun p => (p.1, m p.2)) (vars.rename m) b =
      (accesses S function line todo vars b).rename m := by
  induction todo generalizing vars b with
  | nil => rfl
  | cons p todo ih =>
    obtain ⟨⟨hS, hT⟩, hknown⟩ := List.forall_mem_cons.mp hknown
    rw [List.map_cons, accesses, accesses, if_pos hS, if_pos hT, Numbering.intern_rename hm]
    exact ih hknown _ _

variable {f g : Function} (hcode : g.code = f.code.map (Instruction.rename m))
  (hknown : ∀ v ∈ f.mentioned, S.contains v = true ∧ T.contains (m v) = true)
include hcode hknown

private theorem lines_rename (todo : List Nat) (vars : Numbering) (b : Block) :
    lines T g todo (vars.rename m) b = (lines S f todo vars b).rename m := by
  induction todo generalizing vars b with
  | nil => rfl
  | cons line todo ih =>
    rw [lines, lines, hcode, List.getElem?_map]
    cases hi : f.code[line]? with
    | none => rfl
    | some i =>
      have hline : ∀ p ∈ i.accesses, S.contains p.2 = true ∧ T.contains (m p.2) = true :=
        fun p hp => hknown p.2 (FlowGraph.mem_mentioned_of_accesses ⟨i, hi, hp⟩)
      simp only [Option.map_some, Instruction.accesses_rename]
      rw [accesses_rename hm hline]
      rcases accesses S f.name line i.accesses vars b with ⟨vars', b', _ | e⟩
      · exact ih vars' b'
      · rfl

private theorem blocks_rename (todo : List Block) (vars : Numbering) :
    blocks T g todo (vars.rename m) = (blocks S f todo vars).rename m := by
  induction todo generalizing vars with
  | nil => rfl
  | cons b todo ih =>
    rw [blocks, blocks, lines_rename hm hcode hknown]
    rcases lines S f b.lines vars b with ⟨vars', b', _ | e⟩
    · simp only [rename, ih]
    · rfl

end Recorded

namespace FlowGraph

def rename (m : Variable → Variable) (function : String) (g : FlowGraph) : FlowGraph :=
  { g with function, vars := g.vars.rename m }

private theorem linked_rename {m : Variable → Variable} {f g : Function}
    (hcode : g.code = f.code.map (Instruction.rename m)) (bounds : List Bounds) :
    linked g bounds = (linked f bounds).rename m g.name := by
  have hblock : Block.ofBounds g.code = Block.ofBounds f.code := by
    funext b
    rw [hcode, Block.ofBounds_rename]
  have hedges : Links.edges g.code = Links.edges f.code := by
    funext blocks
    rw [hcode, Links.edges_rename]
  have hexit : Links.exit g.code = Links.exit f.code := by
    funext blocks edges
    simp only [hcode, Links.exit, Links.exitBlock_rename]
  simp only [linked, rename, hblock, hedges, hexit, Numbering.rename_empty]

/-- Renaming the variables of a function renames the variables of its flow graph. -/
theorem build_rename {m : Variable → Variable} (hm : Function.Injective m) {f g : Function}
    {S T : SymbolTable} (hcode : g.code = f.code.map (Instruction.rename m))
    (hknown : ∀ v ∈ f.mentioned, S.contains v = true ∧ T.contains (m v) = true) :
    build g T = (build f S).map (rename m g.name) := by
  have hbounds : Bounds.partition g.code = Bounds.partition f.code := by
    rw [hcode]
    exact Bounds.partitionFrom_rename m f.code 0 0
  have hrecord : ∀ bounds, (linked g bounds).record g T =
      (((linked f bounds).record f S).1.rename m g.name, ((linked f bounds).record f S).2) := by
    intro bounds
    have hblocks := Recorded.blocks_rename hm hcode hknown (linked f bounds).blocks.toList
      (linked f bounds).vars
    simp only [linked_rename hcode, record, rename, hblocks]
    rfl
  have hcheck : ∀ name, Bounds.check name f.code.length 0 (Bounds.partition f.code) = .ok () :=
    fun name => (Bounds.check_eq_ok_iff _ _ _ _).mpr (Bounds.tiles_partition f.code)
  have hlength : g.code.length = f.code.length := by rw [hcode, List.length_map]
  simp only [build, ofBounds, hbounds, hlength, hcheck, hrecord]
  rcases (linked f (Bounds.partition f.code)).record f S with ⟨built, _ | e⟩
  · rfl
  · rfl

end FlowGraph

end RegisterColoring
