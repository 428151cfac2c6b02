import RegisterColoring.Proofs.Allocation.Spills
import RegisterColoring.Proofs.Live.Passes

namespace RegisterColoring

namespace SymbolTable

def bytes (t : SymbolTable) (v : Variable) : Nat :=
  ((t.declaration? v).map fun d => d.type.size).getD 0

def bytesOf (t : SymbolTable) : List Variable → Nat
  | [] => 0
  | v :: vs => t.bytes v + t.bytesOf vs

private theorem bytes_of_declaration {t : SymbolTable} {v : Variable} {d : Declaration}
    (h : t.declaration? v = some d) : t.bytes v = d.type.size := by
  simp [bytes, h]

private theorem bytes_pos {t : SymbolTable} {v : Variable} (h : t.contains v = true) :
    0 < t.bytes v := by
  obtain ⟨d, hd⟩ := Option.isSome_iff_exists.mp h
  rw [bytes_of_declaration hd]
  exact d.type.size_pos

end SymbolTable

namespace Allocation

abbrev Slot := Variable × Nat

/-- The slots follow each other from `start` up to `stop`. -/
def Packed (t : SymbolTable) (start stop : Nat) : List Slot → Prop
  | [] => start = stop
  | s :: rest => s.2 = start ∧ Packed t (start + t.bytes s.1) stop rest

namespace Packed
variable {t : SymbolTable} {start stop : Nat} {slots : List Slot}

private theorem stop_eq (h : Packed t start stop slots) :
    stop = start + t.bytesOf (slots.map Prod.fst) := by
  induction slots generalizing start with
  | nil => exact Eq.symm h
  | cons s rest ih =>
    rw [ih h.2, List.map_cons, SymbolTable.bytesOf, Nat.add_assoc]

private theorem offset_eq (h : Packed t start stop slots) {i : Nat} {s : Slot}
    (hs : slots[i]? = some s) :
    s.2 = start + t.bytesOf ((slots.map Prod.fst).take i) := by
  induction slots generalizing start i with
  | nil => simp at hs
  | cons r rest ih =>
    cases i with
    | zero =>
      obtain rfl : r = s := by simpa using hs
      simp [h.1, SymbolTable.bytesOf]
    | succ i =>
      rw [ih h.2 (by simpa using hs), List.map_cons, List.take_succ_cons, SymbolTable.bytesOf,
        Nat.add_assoc]

private theorem within (h : Packed t start stop slots) :
    ∀ s ∈ slots, start ≤ s.2 ∧ s.2 + t.bytes s.1 ≤ stop := by
  induction slots generalizing start with
  | nil => simp
  | cons r rest ih =>
    have hrest := ih h.2
    have hstop := stop_eq h.2
    intro s hs
    rcases List.mem_cons.mp hs with rfl | hs
    · have hfirst := h.1
      omega
    · have := hrest s hs
      omega

private theorem ordered (h : Packed t start stop slots) :
    slots.Pairwise fun s r => s.2 + t.bytes s.1 ≤ r.2 := by
  induction slots generalizing start with
  | nil => exact .nil
  | cons s rest ih =>
    refine .cons ?_ (ih h.2)
    intro r hr
    rw [h.1]
    exact (within h.2 r hr).1

private theorem exists_slot (h : Packed t start stop slots) {byte : Nat} (hstart : start ≤ byte)
    (hstop : byte < stop) : ∃ s ∈ slots, InSlot s.2 (t.bytes s.1) byte := by
  induction slots generalizing start with
  | nil =>
    have : start = stop := h
    omega
  | cons s rest ih =>
    by_cases hbyte : byte < start + t.bytes s.1
    · exact ⟨s, by simp, by rw [h.1]; exact ⟨hstart, hbyte⟩⟩
    · obtain ⟨r, hr, hslot⟩ := ih h.2 (Nat.not_lt.mp hbyte)
      exact ⟨r, by simp [hr], hslot⟩

private theorem slot_unique (h : Packed t start stop slots) {s r : Slot} (hs : s ∈ slots)
    (hr : r ∈ slots) {byte : Nat} (hbyte : InSlot s.2 (t.bytes s.1) byte)
    (hbyte' : InSlot r.2 (t.bytes r.1) byte) :
    s = r := by
  induction slots generalizing start with
  | nil => cases hs
  | cons c rest ih =>
    have hfirst := h.1
    have hafter := within h.2
    unfold InSlot at hbyte hbyte'
    rcases List.mem_cons.mp hs with rfl | hs' <;> rcases List.mem_cons.mp hr with rfl | hr'
    · rfl
    · have := hafter r hr'
      omega
    · have := hafter s hs'
      omega
    · exact ih h.2 hs' hr'

end Packed

private theorem mem_offsets {placed : List Placement} {v : Variable} {offset : Nat} :
    (v, offset) ∈ (ofPlacements placed).offsets ↔
      ∃ p ∈ placed, p.node.var = v ∧ p.location = .memory offset := by
  rw [ofPlacements, mem_filterMap_location Location.memory?]
  simp only [Location.memory?_eq_some]

private theorem packed_layout {t : SymbolTable} {colors : Colors} {offset : Nat} {nodes : List Node}
    {placed : List Placement} (hsize : ∀ n ∈ nodes, n.size = t.bytes n.var)
    (h : Placement.layout colors offset nodes = .ok placed) :
    ∃ stop, Packed t offset stop (ofPlacements placed).offsets := by
  induction nodes generalizing offset placed with
  | nil =>
    obtain rfl := Except.ok.inj h
    exact ⟨offset, rfl⟩
  | cons n rest ih =>
    obtain ⟨c, tail, _, htail, rfl⟩ := (Placement.layout_cons_eq_ok_iff _ _ _ _ _).mp h
    obtain ⟨stop, hstop⟩ := ih (fun m hm => hsize m (by simp [hm])) htail
    refine ⟨stop, ?_⟩
    cases c with
    | register r => exact hstop
    | spilled =>
      refine ⟨rfl, ?_⟩
      rw [← hsize n (by simp)]
      exact hstop

private theorem map_fst_offsets (placed : List Placement) :
    (ofPlacements placed).offsets.map Prod.fst = (ofPlacements placed).spilled := by
  induction placed with
  | nil => rfl
  | cons p placed ih =>
    obtain ⟨n, l⟩ := p
    cases l with
    | register r => exact ih
    | memory offset => exact congrArg (n.var :: ·) ih

private theorem foldl_size {t : SymbolTable} {nodes : List Node}
    (hsize : ∀ n ∈ nodes, n.size = t.bytes n.var) (start : Nat) :
    nodes.foldl (fun bytes n => bytes + n.size) start = start + t.bytesOf (nodes.map Node.var) := by
  induction nodes generalizing start with
  | nil => rfl
  | cons n nodes ih =>
    rw [List.foldl_cons, ih (fun m hm => hsize m (by simp [hm])), hsize n (by simp), List.map_cons,
      SymbolTable.bytesOf, Nat.add_assoc]

/-- The byte of the spill area belongs to the slot of the variable. -/
def HoldsByte (a : Allocation) (t : SymbolTable) (v : Variable) (byte : Nat) : Prop :=
  ∃ offset, a.offset? v = some offset ∧ InSlot offset (t.bytes v) byte

structure HasSlots (a : Allocation) (t : SymbolTable) (slots : List Slot) : Prop where
  packed : Packed t 0 a.area slots
  spilled : slots.map Prod.fst = a.vars.filter a.isSpilled
  offset?_iff : ∀ v offset, a.offset? v = some offset ↔ (v, offset) ∈ slots
  contains : ∀ s ∈ slots, t.contains s.1 = true

end Allocation

namespace Allocator

private theorem exists_slots {g : FlowGraph} (hg : g.Obtained) {a : Allocator} {t : SymbolTable}
    {result : Allocation} (h : (a.allocate g t).result = .ok result) :
    ∃ slots, result.HasSlots t slots := by
  obtain ⟨nodes, placed, hnodes, hplaced, rfl⟩ := (a.allocate_eq_ok_iff g t result).mp h
  have hplaces : a.Places g t nodes placed :=
    ⟨Node.ofFlow_lists hnodes, Placement.layout_laidOut hplaced⟩
  have hnodup := hplaces.nodup hg.nodup_vars
  have hsize : ∀ n ∈ nodes, n.size = t.bytes n.var := by
    intro n hn
    obtain ⟨d, hd, _, hsize⟩ := hplaces.lists.declared n hn
    rw [hsize, SymbolTable.bytes_of_declaration hd]
  obtain ⟨stop, hpacked⟩ := Allocation.packed_layout hsize hplaced
  have harea : (Allocation.ofPlacements placed).area = stop := by
    rw [hpacked.stop_eq, Allocation.map_fst_offsets]
    apply Allocation.foldl_size
    intro n hn
    obtain ⟨p, hp, rfl⟩ := List.mem_map.mp hn
    exact hsize p.node (hplaces.node_mem (List.mem_filter.mp hp).1)
  refine ⟨(Allocation.ofPlacements placed).offsets, harea ▸ hpacked, ?_, ?_, ?_⟩
  · rw [Allocation.map_fst_offsets, Allocation.filter_isSpilled hnodup]
  · intro v offset
    rw [Allocation.offset?_ofPlacements hnodup, Allocation.mem_offsets]
  · rintro ⟨v, offset⟩ hs
    obtain ⟨p, hp, rfl, _⟩ := Allocation.mem_offsets.mp hs
    obtain ⟨d, hd, _⟩ := hplaces.lists.declared p.node (hplaces.node_mem hp)
    rw [SymbolTable.contains, hd, Option.isSome_some]

/-- The slots of the spilled variables tile the spill area: in the order of the variables, each
begins after all bytes of those before it, and the area ends with the last. So every byte of the
area belongs to just one of them, none reaches beyond it, and the offsets ascend. -/
theorem slots_tile_area {g : FlowGraph} (hg : g.Obtained) {a : Allocator} {t : SymbolTable}
    {result : Allocation} (h : (a.allocate g t).result = .ok result) :
    let spilled := result.vars.filter result.isSpilled
    (∀ v ∈ spilled, t.contains v = true) ∧
    (∀ i v, spilled[i]? = some v → result.offset? v = some (t.bytesOf (spilled.take i))) ∧
    result.area = t.bytesOf spilled ∧
    (∀ byte < result.area, ∃ v ∈ spilled, result.HoldsByte t v byte ∧
      ∀ w ∈ spilled, result.HoldsByte t w byte → w = v) ∧
    (∀ v offset, result.offset? v = some offset → offset + t.bytes v ≤ result.area) ∧
    spilled.Pairwise fun v w => ∀ offset offset', result.offset? v = some offset →
      result.offset? w = some offset' → offset < offset' := by
  obtain ⟨slots, hslots⟩ := exists_slots hg h
  intro spilled
  have hspilled : spilled = slots.map Prod.fst := hslots.spilled.symm
  have hcontains : ∀ v ∈ spilled, t.contains v = true := by
    intro v hv
    rw [hspilled] at hv
    obtain ⟨s, hs, rfl⟩ := List.mem_map.mp hv
    exact hslots.contains s hs
  have hoffset : ∀ i v, spilled[i]? = some v →
      result.offset? v = some (t.bytesOf (spilled.take i)) := by
    intro i v hv
    rw [hspilled, List.getElem?_map] at hv
    obtain ⟨s, hs, rfl⟩ := Option.map_eq_some_iff.mp hv
    have hstart := hslots.packed.offset_eq hs
    rw [Nat.zero_add, ← hspilled] at hstart
    rw [hslots.offset?_iff, ← hstart]
    exact List.mem_of_getElem? hs
  refine ⟨hcontains, hoffset, ?_, ?_, ?_, ?_⟩
  · rw [hslots.packed.stop_eq, hspilled, Nat.zero_add]
  · intro byte hbyte
    obtain ⟨s, hs, hin⟩ := hslots.packed.exists_slot (Nat.zero_le byte) hbyte
    refine ⟨s.1, ?_, ⟨s.2, (hslots.offset?_iff _ _).mpr hs, hin⟩, ?_⟩
    · rw [hspilled]
      exact List.mem_map_of_mem hs
    · rintro w _ ⟨offset, hw, hin'⟩
      have hr := (hslots.offset?_iff w offset).mp hw
      exact congrArg Prod.fst (hslots.packed.slot_unique hr hs hin' hin)
  · intro v offset hv
    exact (hslots.packed.within _ ((hslots.offset?_iff v offset).mp hv)).2
  · rw [hspilled, List.pairwise_map]
    apply hslots.packed.ordered.imp_of_mem
    intro s r hs hr hle offset offset' hv hw
    rw [(hslots.offset?_iff s.1 s.2).mpr hs, Option.some.injEq] at hv
    rw [(hslots.offset?_iff r.1 r.2).mpr hr, Option.some.injEq] at hw
    have hpos := SymbolTable.bytes_pos (hslots.contains s hs)
    omega

/-- One register for three variables of different types: the two spilled ones share the area. -/
theorem spin_slots_tile_area :
    let t : SymbolTable :=
      .ofDeclarations [⟨"a", .string, ⟨0⟩⟩, ⟨"b", .char, ⟨0⟩⟩, ⟨"c", .bool, ⟨0⟩⟩] [none]
    ∃ g result, FlowGraph.build spin t = .ok g ∧
      ((new (Pools.standard.take 1 0)).allocate g t).result = .ok result ∧
      result.vars.filter result.isSpilled = [⟨0⟩, ⟨1⟩] ∧ result.offset? ⟨0⟩ = some 0 ∧
      result.offset? ⟨1⟩ = some 8 ∧ result.area = 10 := by
  intro t
  obtain ⟨g, hg, hpass, hlist⟩ : ∃ g, FlowGraph.build spin t = .ok g ∧
      (∀ v ∈ g.vars.toList, Node.Passes (Pools.standard.take 1 0) t v) ∧
      ((new (Pools.standard.take 1 0)).allocate g t).result.toOption.map
        (fun result => result.vars.filter result.isSpilled) = some [⟨0⟩, ⟨1⟩] :=
    ⟨_, rfl, by decide +kernel, by decide +kernel⟩
  obtain ⟨result, h⟩ := exists_allocate (a := new (Pools.standard.take 1 0)) hpass
  rw [h] at hlist
  have hspilled : result.vars.filter result.isSpilled = [⟨0⟩, ⟨1⟩] := Option.some.inj hlist
  obtain ⟨_, hoffset, harea, _⟩ := slots_tile_area (.built (.build hg)) h
  rw [hspilled] at hoffset harea
  exact ⟨g, result, hg, h, hspilled, hoffset 0 _ rfl, hoffset 1 _ rfl, harea⟩

end Allocator

end RegisterColoring
