import RegisterColoring.Allocation
import RegisterColoring.Coloring.Select
import Std.Data.TreeMap.Lemmas
import Mathlib.Data.List.Nodup
import Mathlib.Data.List.Pairwise

namespace RegisterColoring

namespace Color

/-- The place that a color stands for when the next free slot is at `offset`. -/
def place (offset : Nat) : Color → Location
  | .register r => .register r
  | .spilled => .memory offset

/-- The bytes that a node of this color takes from the spill area. -/
def bytes (n : Node) : Color → Nat
  | .register _ => 0
  | .spilled => n.size

end Color

def Location.color : Location → Color
  | .register r => .register r
  | .memory _ => .spilled

private theorem Location.register?_eq_some {l : Location} {r : Register} :
    l.register? = some r ↔ l = .register r := by
  cases l <;> simp [register?]

theorem Location.memory?_eq_some {l : Location} {offset : Nat} :
    l.memory? = some offset ↔ l = .memory offset := by
  cases l <;> simp [memory?]

theorem Location.color_eq_register {l : Location} {r : Register} :
    l.color = .register r ↔ l = .register r := by
  cases l <;> simp [color]

private theorem Color.color_place (offset : Nat) (c : Color) : (c.place offset).color = c := by
  cases c <;> rfl

structure Placement where
  node : Node
  location : Location
deriving DecidableEq

namespace Placement

/-- Give each node its place, with slots from `offset` on. -/
def layout (colors : Colors) (offset : Nat) : List Node → Except AllocError (List Placement)
  | [] => .ok []
  | n :: rest =>
    match colors[n.id]? with
    | none => .error (.fault .unplaced)
    | some (.register r) => do
      let placed ← layout colors offset rest
      .ok (⟨n, .register r⟩ :: placed)
    | some .spilled => do
      let placed ← layout colors (offset + n.size) rest
      .ok (⟨n, .memory offset⟩ :: placed)

def isSpilled (p : Placement) : Bool := p.location.memory?.isSome

def spilled (placed : List Placement) : List Node := (placed.filter isSpilled).map (·.node)

@[simp] theorem spilled_nil : spilled [] = [] := rfl

@[simp] theorem spilled_register (n : Node) (r : Register) (placed : List Placement) :
    spilled (⟨n, .register r⟩ :: placed) = spilled placed := rfl

@[simp] theorem spilled_memory (n : Node) (offset : Nat) (placed : List Placement) :
    spilled (⟨n, .memory offset⟩ :: placed) = n :: spilled placed := rfl

theorem layout_cons_eq_ok_iff (colors : Colors) (offset : Nat) (n : Node) (rest : List Node)
    (placed : List Placement) : layout colors offset (n :: rest) = .ok placed ↔
      ∃ c tail, colors[n.id]? = some c ∧ layout colors (offset + c.bytes n) rest = .ok tail ∧
        placed = ⟨n, c.place offset⟩ :: tail := by
  rw [layout]
  cases colors[n.id]? with
  | none => simp
  | some c =>
    cases c with
    | register r =>
      cases h : layout colors offset rest <;>
        simp [bind, Except.bind, Color.bytes, Color.place, h, eq_comm]
    | spilled =>
      cases h : layout colors (offset + n.size) rest <;>
        simp [bind, Except.bind, Color.bytes, Color.place, h, eq_comm]

theorem exists_layout {colors : Colors} {nodes : List Node}
    (h : ∀ n ∈ nodes, colors[n.id]?.isSome = true) (offset : Nat) :
    ∃ placed, layout colors offset nodes = .ok placed := by
  induction nodes generalizing offset with
  | nil => exact ⟨[], rfl⟩
  | cons n rest ih =>
    obtain ⟨c, hc⟩ := Option.isSome_iff_exists.mp (h n (by simp))
    obtain ⟨tail, htail⟩ := ih (fun m hm => h m (by simp [hm])) (offset + c.bytes n)
    exact ⟨_, (layout_cons_eq_ok_iff _ _ _ _ _).mpr ⟨c, tail, hc, htail, rfl⟩⟩

structure LaidOut (colors : Colors) (offset : Nat) (nodes : List Node) (placed : List Placement) :
    Prop where
  nodes_eq : placed.map Placement.node = nodes
  color_eq : ∀ p ∈ placed, colors[p.node.id]? = some p.location.color
  offset_le : ∀ p ∈ placed, ∀ slot, p.location = .memory slot → offset ≤ slot
  ordered : placed.Pairwise fun p q => ∀ slot slot', p.location = .memory slot →
    q.location = .memory slot' → slot + p.node.size ≤ slot'

theorem layout_laidOut {colors : Colors} {offset : Nat} {nodes : List Node}
    {placed : List Placement} (h : layout colors offset nodes = .ok placed) :
    LaidOut colors offset nodes placed := by
  induction nodes generalizing offset placed with
  | nil =>
    obtain rfl := Except.ok.inj h
    exact ⟨rfl, by simp, by simp, .nil⟩
  | cons n rest ih =>
    obtain ⟨c, tail, hc, htail, rfl⟩ := (layout_cons_eq_ok_iff _ _ _ _ _).mp h
    have hrest := ih htail
    refine ⟨?_, ?_, ?_, ?_⟩
    · rw [List.map_cons, hrest.nodes_eq]
    · intro p hp
      rcases List.mem_cons.mp hp with rfl | hp
      · rw [hc, Color.color_place]
      · exact hrest.color_eq p hp
    · intro p hp slot hslot
      rcases List.mem_cons.mp hp with rfl | hp
      · cases c with
        | register r => cases hslot
        | spilled => exact Nat.le_of_eq (Location.memory.inj hslot)
      · exact Nat.le_trans (Nat.le_add_right _ _) (hrest.offset_le p hp slot hslot)
    · refine List.Pairwise.cons ?_ hrest.ordered
      intro q hq slot slot' hslot hslot'
      have hle := hrest.offset_le q hq slot' hslot'
      cases c with
      | register r => cases hslot
      | spilled =>
        rw [← Location.memory.inj hslot]
        exact hle

/-- If both are in memory, one slot ends before the other begins. -/
def Apart (p q : Placement) : Prop := ∀ slot slot', p.location = .memory slot →
  q.location = .memory slot' → slot + p.node.size ≤ slot' ∨ slot' + q.node.size ≤ slot

instance : Std.Symm Apart where
  symm _ _ h slot slot' hslot hslot' := (h slot' slot hslot' hslot).symm

theorem LaidOut.apart {colors : Colors} {offset : Nat} {nodes : List Node}
    {placed : List Placement} (h : LaidOut colors offset nodes placed) {p q : Placement}
    (hp : p ∈ placed) (hq : q ∈ placed) (hne : p ≠ q) : p.Apart q := by
  have hpairs : placed.Pairwise Apart := by
    refine h.ordered.imp ?_
    intro p q hpq slot slot' hslot hslot'
    exact .inl (hpq slot slot' hslot hslot')
  exact hpairs.forall hp hq hne

end Placement

namespace Allocation

def InSlot (slot size byte : Nat) : Prop := slot ≤ byte ∧ byte < slot + size

def ofPlacements (placed : List Placement) : Allocation where
  vars := placed.map (·.node.var)
  registers := placed.filterMap fun p => p.location.register?.map fun r => (p.node.var, r)
  spilled := (Placement.spilled placed).map Node.var
  offsets := placed.filterMap fun p => p.location.memory?.map fun offset => (p.node.var, offset)
  area := (Placement.spilled placed).foldl (fun bytes n => bytes + n.size) 0

theorem register?_eq_some {a : Allocation} {v : Variable} {r : Register} :
    a.register? v = some r ↔ a.location? v = some (.register r) := by
  unfold location?
  cases a.register? v with
  | some q => simp
  | none => cases a.offset? v <;> simp

theorem isSpilled_iff_exists {placed : List Placement} (v : Variable) :
    (ofPlacements placed).isSpilled v = true ↔
      ∃ p ∈ placed, p.node.var = v ∧ ∃ offset, p.location = .memory offset := by
  have hmemory : ∀ p : Placement, p.isSpilled = true ↔ ∃ offset, p.location = .memory offset := by
    intro p
    rw [Placement.isSpilled, Option.isSome_iff_exists]
    simp only [Location.memory?_eq_some]
  simp only [isSpilled, ofPlacements, Placement.spilled, List.contains_iff_mem, List.mem_map,
    List.mem_filter, hmemory]
  constructor
  · rintro ⟨n, ⟨p, ⟨hp, hspilled⟩, rfl⟩, hv⟩
    exact ⟨p, hp, hv, hspilled⟩
  · rintro ⟨p, hp, hv, hspilled⟩
    exact ⟨p.node, ⟨p, ⟨hp, hspilled⟩, rfl⟩, hv⟩

theorem mem_filterMap_location {α : Type} {placed : List Placement} (part : Location → Option α)
    (v : Variable) (x : α) :
    (v, x) ∈ placed.filterMap (fun p => (part p.location).map fun x => (p.node.var, x)) ↔
      ∃ p ∈ placed, p.node.var = v ∧ part p.location = some x := by
  simp only [List.mem_filterMap, Option.map_eq_some_iff, Prod.mk.injEq]
  constructor
  · rintro ⟨p, hp, y, hy, rfl, rfl⟩
    exact ⟨p, hp, rfl, hy⟩
  · rintro ⟨p, hp, rfl, hx⟩
    exact ⟨p, hp, x, hx, rfl, rfl⟩

section OfPlacements
variable {placed : List Placement} (hn : (placed.map fun p => p.node.var).Nodup)
include hn

private theorem lookup_filterMap {α : Type} (part : Location → Option α) (v : Variable) (x : α) :
    (placed.filterMap fun p => (part p.location).map fun x => (p.node.var, x)).lookup v = some x ↔
      ∃ p ∈ placed, p.node.var = v ∧ part p.location = some x := by
  constructor
  · intro h
    obtain ⟨before, after, heq, _⟩ := List.lookup_eq_some_iff.mp h
    rw [← mem_filterMap_location part v x, heq]
    exact List.mem_append_right before List.mem_cons_self
  · rintro ⟨p, hp, rfl, hx⟩
    induction placed with
    | nil => cases hp
    | cons q placed ih =>
      obtain ⟨hq, hplaced⟩ := List.nodup_cons.mp hn
      rcases List.mem_cons.mp hp with rfl | hp
      · rw [List.filterMap_cons, hx]
        exact List.lookup_cons_self
      · have hne : p.node.var ≠ q.node.var :=
          fun he => hq (List.mem_map.mpr ⟨p, hp, he⟩)
        rw [List.filterMap_cons]
        cases part q.location with
        | none => exact ih hplaced hp
        | some y =>
          rw [Option.map_some, List.lookup_cons, beq_false_of_ne hne]
          exact ih hplaced hp

theorem offset?_ofPlacements (v : Variable) (offset : Nat) :
    (ofPlacements placed).offset? v = some offset ↔
      ∃ p ∈ placed, p.node.var = v ∧ p.location = .memory offset := by
  rw [offset?, ofPlacements, lookup_filterMap hn Location.memory?]
  simp only [Location.memory?_eq_some]

/-- The place of a variable is the one its node got. -/
theorem location?_ofPlacements (v : Variable) (l : Location) :
    (ofPlacements placed).location? v = some l ↔
      ∃ p ∈ placed, p.node.var = v ∧ p.location = l := by
  have hregister : ∀ r, (ofPlacements placed).register? v = some r ↔
      ∃ p ∈ placed, p.node.var = v ∧ p.location = .register r := by
    intro r
    rw [register?, ofPlacements, lookup_filterMap hn Location.register?]
    simp only [Location.register?_eq_some]
  cases l with
  | register r => rw [← register?_eq_some, hregister]
  | memory offset =>
    rw [← offset?_ofPlacements hn]
    have hnone : ∀ r, (ofPlacements placed).offset? v = some offset →
        (ofPlacements placed).register? v ≠ some r := by
      intro r hoffset hr
      obtain ⟨p, hp, hv, hl⟩ := (offset?_ofPlacements hn v offset).mp hoffset
      obtain ⟨q, hq, hv', hl'⟩ := (hregister r).mp hr
      rw [List.inj_on_of_nodup_map hn hp hq (hv.trans hv'.symm), hl'] at hl
      cases hl
    unfold location?
    cases hr : (ofPlacements placed).register? v with
    | none => simp
    | some r =>
      constructor
      · intro h
        cases h
      · intro h
        exact absurd hr (hnone r h)

theorem offset?_eq_some (v : Variable) (offset : Nat) :
    (ofPlacements placed).offset? v = some offset ↔
      (ofPlacements placed).location? v = some (.memory offset) := by
  rw [offset?_ofPlacements hn, location?_ofPlacements hn]

theorem isSpilled_iff (v : Variable) :
    (ofPlacements placed).isSpilled v = true ↔
      ∃ slot, (ofPlacements placed).location? v = some (.memory slot) := by
  rw [isSpilled_iff_exists]
  constructor
  · rintro ⟨p, hp, hv, slot, hslot⟩
    exact ⟨slot, (location?_ofPlacements hn v _).mpr ⟨p, hp, hv, hslot⟩⟩
  · rintro ⟨slot, hslot⟩
    obtain ⟨p, hp, hv, hl⟩ := (location?_ofPlacements hn v _).mp hslot
    exact ⟨p, hp, hv, slot, hl⟩

end OfPlacements

end Allocation

end RegisterColoring
