import RegisterColoring.Proofs.Flow.Buildable
import RegisterColoring.Proofs.Live.Passes
import RegisterColoring.Proofs.Live.Runs
/-!
# Recording a graph again

Recording adds to the tables that are there. An access that a table holds already, under the
identifier that its variable has, is not added a second time, so recording a built graph again
leaves it as it is.
-/
namespace RegisterColoring

private theorem Numbering.intern_of_var? {n : Numbering} (hn : n.toList.Nodup) {id : Nat}
    {v : Variable} (h : n.var? id = some v) : n.intern v = (id, n) := by
  simp [intern, id?_of_var? hn h]

private theorem Mentions.record_of_mem {m : Mentions} {first line id : Nat}
    (h : id ∈ m.onLine first line) : m.record first line id = m := by
  have hlisted : (m.perLine[line - first]?.getD []).contains id = true := by simpa [onLine] using h
  rw [record, if_pos hlisted]

namespace Block

private theorem record_of_mem {b : Block} {access : Access} {line id : Nat}
    (h : id ∈ b.idsAt access line) : b.record access line id = b := by
  unfold idsAt at h
  split at h
  · have hsame := Mentions.record_of_mem h
    cases access with
    | define => simp only [record, show b.defs.record b.first line id = b.defs from hsame]
    | use => simp only [record, show b.uses.record b.first line id = b.uses from hsame]
  · cases h

def Knows (b : Block) (t : SymbolTable) (n : Numbering) (line : Nat) (access : Access)
    (v : Variable) : Prop :=
  t.contains v = true ∧ ∃ id, n.var? id = some v ∧ id ∈ b.idsAt access line

end Block

namespace Recorded
variable {t : SymbolTable} {vars : Numbering} (hn : vars.toList.Nodup)
include hn

private theorem accesses_of_knows (function : String) {line : Nat} {b : Block}
    {todo : List (Access × Variable)} (h : ∀ p ∈ todo, b.Knows t vars line p.1 p.2) :
    accesses t function line todo vars b = ⟨vars, b, none⟩ := by
  induction todo with
  | nil => rfl
  | cons head todo ih =>
    obtain ⟨hhead, hrest⟩ := List.forall_mem_cons.mp h
    obtain ⟨hcontains, id, hid, hlisted⟩ := hhead
    rw [accesses, if_pos hcontains, Numbering.intern_of_var? hn hid]
    simp only [Block.record_of_mem hlisted]
    exact ih hrest

private theorem lines_of_knows {f : Function} {b : Block} {todo : List Nat}
    (hlines : ∀ line ∈ todo, line < f.code.length)
    (h : ∀ line ∈ todo, ∀ access v, Accesses f.code access line v → b.Knows t vars line access v) :
    lines t f todo vars b = ⟨vars, b, none⟩ := by
  induction todo with
  | nil => rfl
  | cons line todo ih =>
    obtain ⟨hlt, hlines⟩ := List.forall_mem_cons.mp hlines
    obtain ⟨hline, hrest⟩ := List.forall_mem_cons.mp h
    have hi : f.code[line]? = some f.code[line] := List.getElem?_eq_getElem hlt
    have hknown : accesses t f.name line f.code[line].accesses vars b = ⟨vars, b, none⟩ := by
      apply accesses_of_knows hn
      intro p hp
      exact hline p.1 p.2 ⟨_, hi, hp⟩
    rw [lines, hi]
    simp only [hknown]
    exact ih hlines hrest

private theorem blocks_of_knows {f : Function} {todo : List Block}
    (hlines : ∀ b ∈ todo, ∀ line ∈ b.lines, line < f.code.length)
    (h : ∀ b ∈ todo, ∀ line ∈ b.lines, ∀ access v, Accesses f.code access line v →
      b.Knows t vars line access v) :
    blocks t f todo vars = ⟨vars, todo, none⟩ := by
  induction todo with
  | nil => rfl
  | cons b todo ih =>
    obtain ⟨hfirst, hlines⟩ := List.forall_mem_cons.mp hlines
    obtain ⟨hb, hrest⟩ := List.forall_mem_cons.mp h
    rw [blocks, lines_of_knows hn hfirst hb]
    simp only [ih hlines hrest]

end Recorded

namespace FlowGraph

private theorem contains_of_ofBounds {f : Function} {t : SymbolTable} {bounds : List Bounds}
    {g : FlowGraph} (h : ofBounds f t bounds = .ok g) {access : Access} {line : Nat} {v : Variable}
    (hv : Accesses f.code access line v) : t.contains v = true := by
  obtain ⟨htiles, _, hrecorded⟩ := record_eq_ok h
  have herror := (record_follows t htiles).error
  rw [hrecorded, eq_comm, Option.map_eq_none_iff, List.find?_eq_none] at herror
  simpa using herror v (mem_accessed.mpr ⟨access, line, hv⟩)

/-- A graph that describes a function has on record all that a table with its variables leads to. -/
theorem Describes.record_eq {g : FlowGraph} {f : Function} {bounds : List Bounds} {t : SymbolTable}
    (h : g.Describes f bounds)
    (ht : ∀ access line v, Accesses f.code access line v → t.contains v = true) :
    g.record f t = (g, none) := by
  have hblocks : Recorded.blocks t f g.blocks.toList g.vars = ⟨g.vars, g.blocks.toList, none⟩ := by
    apply Recorded.blocks_of_knows h.nodup
    · intro b hb line hline
      exact h.lt_length_of_mem_lines (Array.mem_toList_iff.mp hb) hline
    · intro b hb line hline access v hv
      rw [Array.mem_toList_iff] at hb
      obtain ⟨id, hid⟩ := h.named b hb access line hline v hv
      exact ⟨ht access line v hv, id, hid, (h.mem_idsAt_iff hb hline hid access).mpr hv⟩
  simp only [record, hblocks, Array.toArray_toList]

private theorem sameRecords_of_bare {g g' : FlowGraph} (h : g'.bare = g.bare) :
    g.SameRecords g' where
  blocks := by
    have hblocks := congrArg (fun g => g.blocks.toList) h
    simpa only [bare, Array.toList_map] using hblocks
  edges := show g'.bare.edges = g.bare.edges by rw [h]
  vars := show g'.bare.vars = g.bare.vars by rw [h]

/-- A built graph is left as it is, with all that the analyses found, when its function is recorded
again. -/
theorem Built.record_again {f : Function} {t : SymbolTable} {g : FlowGraph} (hg : g.Built f t)
    (passes : List Pass) :
    (passes.foldl pass g).record f t = (passes.foldl pass g, none) := by
  obtain ⟨bounds, hbounds⟩ := hg.exists_ofBounds
  have hdescribes := (ofBounds_describes hbounds).of_sameRecords
    (sameRecords_of_bare (bare_passes passes g))
  apply hdescribes.record_eq
  intro access line v hv
  exact contains_of_ofBounds hbounds hv

/-- The loop after two analyses. -/
theorem spin_record_again : ∃ g, build spin spinTable = .ok g ∧
    g.analyze.1.analyze.1.record spin spinTable = (g.analyze.1.analyze.1, none) := by
  obtain ⟨g, hg⟩ : ∃ g, build spin spinTable = .ok g := ⟨_, rfl⟩
  exact ⟨g, hg, Built.record_again (.build hg) [.both, .both]⟩

end FlowGraph

end RegisterColoring
