import RegisterColoring.Proofs.Flow.Buildable
import RegisterColoring.Proofs.Flow.Order
import RegisterColoring.Proofs.Interference.Nodes
/-!
# The tables of a flow graph

A block keeps its definitions and its uses twice, line by line and variable by variable, and the
graph numbers the variables while these tables are filled. All three say the same as the
instructions.
-/
namespace RegisterColoring

namespace Numbering

/-- The variables of the list and no others are numbered, from zero on and without a gap, by the
order in which each of them is first mentioned. -/
structure ByFirstMention (n : Numbering) (mentions : List Variable) : Prop where
  inverse : ∀ v id, n.id? v = some id ↔ n.var? id = some v
  dense : ∀ id, (∃ v, n.var? id = some v) ↔ id < n.size
  numbers : ∀ v, (∃ id, n.id? v = some id) ↔ v ∈ mentions
  order : ∀ v w i j, n.id? v = some i → n.id? w = some j →
    (i < j ↔ mentions.idxOf v < mentions.idxOf w)

/-- Dropping repetitions keeps the order of first occurrences. -/
private theorem idxOf_eraseDups_lt_iff {vs : List Variable} {v w : Variable} (hv : v ∈ vs)
    (hw : w ∈ vs) : vs.eraseDups.idxOf v < vs.eraseDups.idxOf w ↔ vs.idxOf v < vs.idxOf w := by
  induction vs using List.reverseRecOn with
  | nil => cases hv
  | append_singleton vs u ih =>
    have hold : ∀ x ∈ vs, (vs ++ [u]).eraseDups.idxOf x = vs.eraseDups.idxOf x ∧
        (vs ++ [u]).idxOf x = vs.idxOf x ∧ vs.eraseDups.idxOf x < vs.eraseDups.length ∧
        vs.idxOf x < vs.length := by
      intro x hx
      have hx' : x ∈ vs.eraseDups := List.mem_eraseDups.mpr hx
      rw [List.eraseDups_append, List.idxOf_append_of_mem hx', List.idxOf_append_of_mem hx]
      exact ⟨rfl, rfl, List.idxOf_lt_length_of_mem hx', List.idxOf_lt_length_of_mem hx⟩
    have hnew : ∀ x ∈ vs ++ [u], x ∉ vs →
        (vs ++ [u]).eraseDups.idxOf x = vs.eraseDups.length ∧
        (vs ++ [u]).idxOf x = vs.length := by
      intro x hx hnot
      have hnot' : x ∉ vs.eraseDups := fun h => hnot (List.mem_eraseDups.mp h)
      have hlast : x = u := by simpa [hnot] using hx
      subst hlast
      rw [List.eraseDups_append, List.idxOf_append_of_notMem hnot',
        List.idxOf_append_of_notMem hnot]
      simp [List.removeAll, hnot, List.eraseDups_cons]
    by_cases hv' : v ∈ vs
    · by_cases hw' : w ∈ vs
      · rw [(hold v hv').1, (hold v hv').2.1, (hold w hw').1, (hold w hw').2.1]
        exact ih hv' hw'
      · have := hold v hv'
        have := hnew w hw hw'
        omega
    · have := hnew v hv hv'
      by_cases hw' : w ∈ vs
      · have := hold w hw'
        omega
      · have := hnew w hw hw'
        omega

private theorem byFirstMention {n : Numbering} {mentions : List Variable}
    (h : n.toList = mentions.eraseDups) (hn : n.toList.Nodup) : n.ByFirstMention mentions := by
  have hmem : ∀ v, v ∈ n.toList ↔ v ∈ mentions := by
    intro v
    rw [h, List.mem_eraseDups]
  have hposition : ∀ v id, n.id? v = some id → v ∈ mentions ∧ mentions.eraseDups.idxOf v = id := by
    intro v id hv
    rw [id?_eq_some_iff hn, ← getElem?_toList] at hv
    have hlt := (List.getElem?_eq_some_iff.mp hv).1
    have hget := (List.getElem?_eq_some_iff.mp hv).2
    have hidx := hn.idxOf_getElem id hlt
    rw [hget, h] at hidx
    exact ⟨(hmem v).mp (List.mem_of_getElem? hv), hidx⟩
  refine ⟨id?_eq_some_iff hn, ?_, ?_, ?_⟩
  · intro id
    constructor
    · intro hv
      obtain ⟨v, hv⟩ := hv
      exact var?_lt_size hv
    · intro hlt
      exact ⟨n.vars[id], Array.getElem?_eq_getElem hlt⟩
  · intro v
    constructor
    · intro hid
      obtain ⟨id, hid⟩ := hid
      exact (hposition v id hid).1
    · intro hv
      obtain ⟨id, hid⟩ := List.mem_iff_getElem?.mp ((hmem v).mpr hv)
      rw [getElem?_toList] at hid
      exact ⟨id, id?_of_var? hn hid⟩
  · intro v w i j hi hj
    have hv := hposition v i hi
    have hw := hposition w j hj
    rw [← hv.2, ← hw.2]
    exact idxOf_eraseDups_lt_iff hv.1 hw.1

end Numbering

def Mentions.Distinct (m : Mentions) : Prop :=
  ∀ (k : Nat) (ids : List Nat), m.perLine[k]? = some ids → ids.Nodup

private theorem Mentions.distinct_none (count : Nat) : (none count).Distinct := by
  intro k ids hids
  simp only [none, Array.getElem?_replicate] at hids
  split at hids
  · simp [← Option.some.inj hids]
  · cases hids

private theorem Mentions.Distinct.record {m : Mentions} (h : m.Distinct) (first line id : Nat) :
    (m.record first line id).Distinct := by
  unfold Mentions.record
  split
  · exact h
  · next hfresh =>
    intro k ids hids
    simp only [Array.getElem?_modify] at hids
    split at hids
    · next hk =>
      subst hk
      obtain ⟨old, hold, rfl⟩ := Option.map_eq_some_iff.mp hids
      have hnot : id ∉ old := by simpa [hold] using hfresh
      simpa [← List.concat_eq_append, List.nodup_concat, hnot] using h _ old hold
    · exact h k ids hids

def Block.Distinct (b : Block) : Prop := ∀ access, (b.mentions access).Distinct

private theorem Block.distinct_ofBounds (code : List Instruction) (c : Bounds) :
    (ofBounds code c).Distinct := by
  intro access
  cases access <;> exact Mentions.distinct_none _

private theorem Block.Distinct.record {b : Block} (h : b.Distinct) (access : Access)
    (line id : Nat) : (b.record access line id).Distinct := by
  intro access'
  rw [mentions_record]
  split
  · exact (h access').record _ _ _
  · exact h access'

private theorem Block.Distinct.nodup_idsAt {b : Block} (h : b.Distinct) (access : Access)
    (line : Nat) : (b.idsAt access line).Nodup := by
  unfold idsAt Mentions.onLine
  split
  · cases hids : (b.mentions access).perLine[line - b.first]? with
    | none => simp
    | some ids => exact h access _ ids hids
  · simp

private theorem FlowGraph.ofBounds_distinct {f : Function} {t : SymbolTable} {bounds : List Bounds}
    {g : FlowGraph} (h : ofBounds f t bounds = .ok g) : ∀ b ∈ g.blocks, b.Distinct := by
  have hstart : ∀ b ∈ bounds.map (Block.ofBounds f.code), b.Distinct := by
    simp only [List.forall_mem_map]
    intro c _
    exact Block.distinct_ofBounds f.code c
  have hend : ∀ b ∈ (Recorded.blocks t f (bounds.map (Block.ofBounds f.code)) .empty).value,
      b.Distinct :=
    (Recorded.blocks_keep (P := fun _ => True) (fun _ _ h => h)
      (fun b access line id hb => Block.Distinct.record hb access line id) t f _ trivial hstart).2
  rw [(record_eq_ok h).2.2] at hend
  intro b hb
  exact hend b (Array.mem_toList_iff.mpr hb)

def Instruction.accessed (i : Instruction) : Access → List Variable
  | .define => i.defs
  | .use => i.uses

private theorem Instruction.mem_accesses {i : Instruction} {access : Access} {v : Variable} :
    (access, v) ∈ i.accesses ↔ v ∈ i.accessed access := by
  cases access <;> simp [accesses, accessed]

namespace Block

def listed? (b : Block) : Access → Nat → Option (List Nat)
  | .define => b.defsAt?
  | .use => b.usesAt?

private theorem listed?_eq {b : Block} {line : Nat} (h : b.HasLine line) (access : Access) :
    b.listed? access line = some (b.idsAt access line) := by
  have hsize := h.2 access
  cases access <;>
    simp_all [listed?, defsAt?, usesAt?, idsAt, mentions, Mentions.onLine, h.1]

/-- The two tables of one kind of access agree with the code and with each other. On every line
they list the variables of its instruction, each once, and a variable has its lines in order. -/
structure Tabulates (b : Block) (code : List Instruction) (n : Numbering) (access : Access) :
    Prop where
  byLine : ∀ line ∈ b.lines, ∃ i ids, code[line]? = some i ∧ b.listed? access line = some ids ∧
    ids.Nodup ∧ (∀ id ∈ ids, id < n.size) ∧ ∀ v id, n.id? v = some id →
      (id ∈ ids ↔ v ∈ i.accessed access) ∧
      (id ∈ ids ↔ ∃ ls, (b.mentions access).linesOf[id]? = some ls ∧ line ∈ ls)
  byVariable : ∀ (id : Nat) (ls : List Nat), (b.mentions access).linesOf[id]? = some ls →
    ls ≠ [] ∧ ls.Pairwise (· < ·) ∧ ∀ line ∈ ls, line ∈ b.lines

private theorem mem_linesOf_iff {b : Block} (h : b.Agrees) (access : Access) (id line : Nat) :
    (∃ ls, (b.mentions access).linesOf[id]? = some ls ∧ line ∈ ls) ↔ id ∈ b.idsAt access line := by
  rw [← h.mem_getD_linesOf, Std.TreeMap.getD_eq_getD_getElem?]
  cases (b.mentions access).linesOf[id]? <;> simp

end Block

namespace FlowGraph

private theorem Describes.tabulates {g : FlowGraph} {f : Function} {bounds : List Bounds}
    (h : g.Describes f bounds) {b : Block} (hb : b ∈ g.blocks) (hascends : b.Ascends)
    (hdistinct : b.Distinct) (access : Access) : b.Tabulates f.code g.vars access where
  byLine line hline := by
    have hlt := h.lt_length_of_mem_lines hb hline
    have hroom := h.hasLine b hb line hline
    refine ⟨f.code[line], b.idsAt access line, List.getElem?_eq_getElem hlt,
      Block.listed?_eq hroom access, hdistinct.nodup_idsAt access line, ?_, ?_⟩
    · intro id hid
      exact h.idsAt_lt hb hid
    · intro v id hv
      rw [Numbering.id?_eq_some_iff h.nodup] at hv
      rw [Block.mem_linesOf_iff (h.agrees b hb)]
      refine ⟨?_, Iff.rfl⟩
      rw [h.mem_idsAt_iff hb hline hv, Accesses]
      simp [hlt, Instruction.mem_accesses]
  byVariable id ls hls := by
    have hget : (b.mentions access).linesOf.getD id [] = ls := by
      simp [Std.TreeMap.getD_eq_getD_getElem?, hls]
    refine ⟨?_, ?_, ?_⟩
    · rw [← hget]
      apply (h.agrees b hb access).listed
      simp [Std.TreeMap.mem_iff_isSome_getElem?, hls]
    · rw [← hget]
      exact hascends access id
    · intro line hline
      have hid := (Block.mem_linesOf_iff (h.agrees b hb) access id line).mp ⟨ls, hls, hline⟩
      exact ((h.mem_idsAt b hb access line id).mp hid).1

/-- Definitions and uses are recorded as the instructions have them, in the table of the lines and
in that of the variables. No line has two definitions, and the variables are numbered in the order
in which the lines mention them, the definitions of a line first. -/
theorem Built.tables_agree {f : Function} {t : SymbolTable} {g : FlowGraph} (hg : g.Built f t) :
    (∀ b ∈ g.blocks, ∀ access, b.Tabulates f.code g.vars access) ∧
    (∀ b ∈ g.blocks, ∀ line ids, b.defsAt? line = some ids → ids.length ≤ 1) ∧
    g.vars.ByFirstMention f.accessed := by
  obtain ⟨bounds, hbounds⟩ := hg.exists_ofBounds
  have hdescribes := ofBounds_describes hbounds
  have hdistinct := ofBounds_distinct hbounds
  refine ⟨?_, ?_, ?_⟩
  · intro b hb access
    exact hdescribes.tabulates hb (hg.ascends b hb) (hdistinct b hb) access
  · intro b hb line ids hids
    have hline : b.idsAt .define line = ids := by rw [← b.getD_defsAt?, hids, Option.getD_some]
    have hnodup := hline ▸ (hdistinct b hb).nodup_idsAt .define line
    have honly : ∀ v ∈ ids, ∀ w ∈ ids, v = w := by
      rw [← hline]
      exact fun v hv w hw => hdescribes.define_subsingleton hb hv hw
    rcases ids with _ | ⟨v, _ | ⟨w, rest⟩⟩
    · simp
    · simp
    · simp [honly v (by simp) w (by simp)] at hnodup
  · exact Numbering.byFirstMention (vars_of_ofBounds hbounds) hdescribes.nodup

/-- The last block of the loop defines `c` from itself and `b`, in this order. -/
theorem spin_tables_agree : ∃ g, build spin spinTable = .ok g ∧
    (g.blocks[2]?.bind fun b => b.usesAt? 4) = some [2, 1] ∧
    (∀ b ∈ g.blocks, ∀ access, b.Tabulates spin.code g.vars access) ∧
    (∀ b ∈ g.blocks, ∀ line ids, b.defsAt? line = some ids → ids.length ≤ 1) ∧
    g.vars.ByFirstMention [⟨0⟩, ⟨1⟩, ⟨2⟩, ⟨1⟩, ⟨0⟩, ⟨2⟩, ⟨2⟩, ⟨1⟩, ⟨2⟩] := by
  obtain ⟨g, hg, huses⟩ : ∃ g, build spin spinTable = .ok g ∧
      (g.blocks[2]?.bind fun b => b.usesAt? 4) = some [2, 1] := ⟨_, rfl, by decide +kernel⟩
  exact ⟨g, hg, huses, Built.tables_agree (.build hg)⟩

end FlowGraph

end RegisterColoring
