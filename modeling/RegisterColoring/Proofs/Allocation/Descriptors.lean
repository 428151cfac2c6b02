import RegisterColoring.Proofs.Allocation.History
/-!
# The two descriptor tables

A register lists an identifier exactly if the descriptor of the identifier names the register. Runs
replace both tables at once, refused runs touch neither, and an eviction changes both alike.
-/
namespace RegisterColoring

private theorem VariableDescriptor.locations_empty_add (l : Location) :
    (empty.add l).locations = [l] := by
  simp [empty, add]

private theorem RegisterDescriptor.mem_add {d : RegisterDescriptor} {id id' : Nat} :
    id' ∈ (d.add id).ids ↔ id' ∈ d.ids ∨ id' = id := by
  unfold add
  split
  · next hmem =>
    have hid : id ∈ d.ids := by simpa using hmem
    constructor
    · exact Or.inl
    · rintro (h | rfl)
      · exact h
      · exact hid
  · simp

private theorem RegisterDescriptor.nodup_add {d : RegisterDescriptor} (h : d.ids.Nodup) (id : Nat) :
    (d.add id).ids.Nodup := by
  unfold add
  split
  · exact h
  · next hnew =>
    have hid : id ∉ d.ids := by simpa using hnew
    refine List.nodup_append.mpr ⟨h, List.nodup_singleton id, ?_⟩
    intro x hx y hy hxy
    exact hid (List.mem_singleton.mp hy ▸ hxy ▸ hx)

namespace RegisterTable

/-- The descriptor of a register. One that is not in the table holds nothing. -/
def descriptor (t : RegisterTable) (r : Register) : RegisterDescriptor := (t.lookup r).getD .empty

private theorem lookup_map (t : RegisterTable) (change : RegisterDescriptor → RegisterDescriptor)
    (r s : Register) :
    (t.map fun e => if e.1 = r then (e.1, change e.2) else e).lookup s =
      if s = r then (t.lookup s).map change else t.lookup s := by
  induction t with
  | nil => simp
  | cons e t ih =>
    obtain ⟨key, d⟩ := e
    by_cases hkey : key = r <;> by_cases hs : s = key
    · subst hkey hs
      simp
    · subst hkey
      simp only [List.map_cons, if_true, List.lookup_cons, beq_eq_false_iff_ne.mpr hs, ih]
    · subst hs
      simp [hkey]
    · simp only [List.map_cons, hkey, if_false, List.lookup_cons, beq_eq_false_iff_ne.mpr hs, ih]

private theorem lookup_vacate (t : RegisterTable) (r s : Register) :
    (t.vacate r).lookup s =
      if s = r then (t.lookup s).map fun _ => .empty else t.lookup s :=
  t.lookup_map (fun _ => .empty) r s

private theorem descriptor_occupy (t : RegisterTable) (r s : Register) (id : Nat) :
    (t.occupy r id).descriptor s =
      if s = r then (t.descriptor s).add id else t.descriptor s := by
  have hany : (t.any fun e => e.1 = r) = true ↔ (t.lookup r).isSome = true := by
    rw [List.any_eq_true, List.lookup_isSome_iff]
    simp only [decide_eq_true_eq, beq_iff_eq, @eq_comm _ r]
  unfold descriptor occupy
  cases h : t.lookup r with
  | some d =>
    rw [if_pos (hany.mpr (by rw [h, Option.isSome_some])), t.lookup_map (·.add id) r s]
    by_cases hs : s = r
    · simp [hs, h]
    · simp [hs]
  | none =>
    rw [if_neg (by rw [hany, h]; simp), List.lookup_append]
    by_cases hs : s = r
    · simp [hs, h]
    · simp [hs, List.lookup_cons, beq_false_of_ne hs]

private theorem descriptor_free (pools : Pools) (r : Register) :
    (free pools).descriptor r = .empty := by
  unfold descriptor
  cases h : (free pools).lookup r with
  | none => rfl
  | some d =>
    obtain ⟨before, after, heq, _⟩ := List.lookup_eq_some_iff.mp h
    have hmem : (r, d) ∈ free pools := by simp [heq]
    obtain ⟨_, _, he⟩ := List.mem_map.mp hmem
    exact (congrArg Prod.snd he).symm

private theorem descriptor_enter (t : RegisterTable) (p : Placement) (r : Register) :
    (t.enter p).descriptor r =
      if p.location = .register r then (t.descriptor r).add p.node.id else t.descriptor r := by
  unfold enter
  split
  · next s hs => simp only [descriptor_occupy, hs, Location.register.injEq, eq_comm]
  · next offset hs => simp [hs]

private theorem mem_foldl_enter (t : RegisterTable) (placed : List Placement) (r : Register)
    (id : Nat) :
    id ∈ ((placed.foldl enter t).descriptor r).ids ↔
      id ∈ (t.descriptor r).ids ∨ ∃ p ∈ placed, p.location = .register r ∧ p.node.id = id := by
  induction placed generalizing t with
  | nil => simp
  | cons p placed ih =>
    rw [List.foldl_cons, ih, descriptor_enter]
    split
    · next hp => simp [RegisterDescriptor.mem_add, hp, or_assoc, eq_comm]
    · next hp => simp [hp]

private theorem nodup_foldl_enter {t : RegisterTable} (h : ∀ r, (t.descriptor r).ids.Nodup)
    (placed : List Placement) (r : Register) :
    ((placed.foldl enter t).descriptor r).ids.Nodup := by
  induction placed generalizing t with
  | nil => exact h r
  | cons p placed ih =>
    apply ih
    intro s
    rw [descriptor_enter]
    split
    · exact RegisterDescriptor.nodup_add (h s) _
    · exact h s

end RegisterTable

namespace Allocator

def Lists (a : Allocator) (r : Register) (id : Nat) : Prop :=
  ∃ d, a.registerDescriptor? r = some d ∧ id ∈ d.ids

def Holds (a : Allocator) (id : Nat) (l : Location) : Prop :=
  ∃ d, a.variableTable[id]? = some d ∧ l ∈ d.locations

/-- The tables are each other's inverse: no list repeats an identifier and no identifier has two
places. -/
structure Mirrored (a : Allocator) : Prop where
  lists_iff_holds : ∀ r id, a.Lists r id ↔ a.Holds id (.register r)
  nodup : ∀ r d, a.registerDescriptor? r = some d → d.ids.Nodup
  one_place : ∀ (id : Nat) d, a.variableTable[id]? = some d → d.locations.length ≤ 1

/-- `left` is `a` after all occupants of the register have left it: nothing else has changed. -/
structure Evicted (a : Allocator) (r : Register) (left : Allocator) : Prop where
  nowhere : ∀ id, ¬ left.Holds id (.register r)
  free : ∀ d, left.registerDescriptor? r = some d → d.isFree = true
  known : (left.registerDescriptor? r).isSome = (a.registerDescriptor? r).isSome
  registers : ∀ s, s ≠ r → left.registerDescriptor? s = a.registerDescriptor? s
  elsewhere : ∀ id : Nat, left.variableTable[id]?.map VariableDescriptor.locations =
    a.variableTable[id]?.map fun d => d.locations.filter (· ≠ .register r)

private theorem lists_iff (a : Allocator) (r : Register) (id : Nat) :
    a.Lists r id ↔ id ∈ (a.registerTable.descriptor r).ids := by
  unfold Lists registerDescriptor? RegisterTable.descriptor
  cases a.registerTable.lookup r <;> simp [RegisterDescriptor.empty]

private theorem mirrored_new (pools : Pools) : (new pools).Mirrored where
  lists_iff_holds r id := by simp [Lists, Holds, registerDescriptor?, new]
  nodup r d h := by cases h
  one_place id d h := by simp [new] at h

private theorem ids_of_outcome {pools : Pools} {g : FlowGraph} {t : SymbolTable}
    {placed : List Placement} (h : outcome pools g t = .ok placed) :
    (placed.map fun p => p.node.id) = List.range g.vars.size := by
  obtain ⟨nodes, hnodes, hlayout⟩ := (outcome_eq_ok_iff _ _ _ _).mp h
  rw [← (Node.ofFlow_lists hnodes).ids, ← (Placement.layout_laidOut hlayout).nodes_eq,
    List.map_map]
  rfl

private theorem getElem?_iff_id_eq {placed : List Placement} {count : Nat}
    (h : (placed.map fun p => p.node.id) = List.range count) (id : Nat) (p : Placement) :
    placed[id]? = some p ↔ p ∈ placed ∧ p.node.id = id := by
  have hid : ∀ (k : Nat) q, placed[k]? = some q → q.node.id = k := by
    intro k q hq
    have hk : (List.range count)[k]? = some q.node.id := by
      rw [← h, List.getElem?_map, hq]
      rfl
    obtain ⟨_, he⟩ := List.getElem?_eq_some_iff.mp hk
    rw [← he, List.getElem_range]
  constructor
  · intro hp
    exact ⟨List.mem_of_getElem? hp, hid id p hp⟩
  · rintro ⟨hp, rfl⟩
    obtain ⟨k, hk⟩ := List.mem_iff_getElem?.mp hp
    rw [hid k p hk, hk]

private theorem mirrored_settle (a : Allocator) (vars : Numbering) {placed : List Placement}
    {count : Nat} (h : (placed.map fun p => p.node.id) = List.range count) :
    (a.settle vars placed).Mirrored := by
  have htable : ∀ id : Nat, (a.settle vars placed).variableTable[id]? =
      placed[id]?.map fun p => VariableDescriptor.empty.add p.location := by
    intro id
    rw [settle, List.getElem?_toArray, List.getElem?_map]
  refine ⟨?_, ?_, ?_⟩
  · intro r id
    rw [lists_iff]
    change id ∈ ((placed.foldl RegisterTable.enter (.free a.pools)).descriptor r).ids ↔ _
    rw [RegisterTable.mem_foldl_enter, RegisterTable.descriptor_free, Holds, htable]
    simp only [RegisterDescriptor.empty, List.not_mem_nil, false_or, Option.map_eq_some_iff,
      getElem?_iff_id_eq h]
    constructor
    · rintro ⟨p, hp, hr, hid⟩
      exact ⟨_, ⟨p, ⟨hp, hid⟩, rfl⟩, by simp [VariableDescriptor.locations_empty_add, hr]⟩
    · rintro ⟨_, ⟨p, ⟨hp, hid⟩, rfl⟩, hr⟩
      rw [VariableDescriptor.locations_empty_add, List.mem_singleton] at hr
      exact ⟨p, hp, hr.symm, hid⟩
  · intro r d hd
    have hnodup := RegisterTable.nodup_foldl_enter (t := .free a.pools)
      (fun r => by rw [RegisterTable.descriptor_free]; exact List.nodup_nil) placed r
    have hd' : (placed.foldl RegisterTable.enter (.free a.pools)).lookup r = some d := hd
    rw [RegisterTable.descriptor, hd'] at hnodup
    exact hnodup
  · intro id d hd
    rw [htable, Option.map_eq_some_iff] at hd
    obtain ⟨p, _, rfl⟩ := hd
    simp [VariableDescriptor.locations_empty_add]

private theorem getElem?_foldl_remove (l : Location) (ids : List Nat)
    (ds : Array VariableDescriptor) (id : Nat) :
    (ids.foldl (fun ds id => ds.modify id (·.remove l)) ds)[id]? =
      if id ∈ ids then ds[id]?.map (·.remove l) else ds[id]? := by
  induction ids generalizing ds with
  | nil => simp
  | cons first ids ih =>
    rw [List.foldl_cons, ih, Array.getElem?_modify]
    by_cases hfirst : first = id
    · subst hfirst
      cases ds[first]? <;> simp [VariableDescriptor.remove]
    · simp [hfirst, Ne.symm hfirst]

private theorem evicted_freeRegister {a : Allocator} (h : a.Mirrored) (r : Register) :
    a.Evicted r (a.freeRegister r) := by
  have hregisters : ∀ s, (a.freeRegister r).registerDescriptor? s =
      if s = r then (a.registerDescriptor? s).map fun _ => .empty
      else a.registerDescriptor? s := fun s => a.registerTable.lookup_vacate r s
  have helsewhere : ∀ id : Nat, (a.freeRegister r).variableTable[id]? =
      a.variableTable[id]?.map (·.remove (.register r)) := by
    intro id
    rw [freeRegister, getElem?_foldl_remove]
    split
    · rfl
    · next hid =>
      have hlists : ¬ a.Lists r id := by
        rintro ⟨d, hd, hmem⟩
        rw [hd] at hid
        exact hid hmem
      cases hd : a.variableTable[id]? with
      | none => rfl
      | some d =>
        -- the register would list the identifier if its descriptor named the register
        have hnot : .register r ∉ d.locations := by
          intro hr
          exact hlists ((h.lists_iff_holds r id).mpr ⟨d, hd, hr⟩)
        have hkept : d.locations.filter (· ≠ .register r) = d.locations := by
          rw [List.filter_eq_self]
          intro l hl
          simpa using fun he : l = .register r => hnot (he ▸ hl)
        rw [Option.map_some, VariableDescriptor.remove, hkept]
  refine ⟨?_, ?_, ?_, ?_, ?_⟩
  · rintro id ⟨d, hd, hr⟩
    rw [helsewhere, Option.map_eq_some_iff] at hd
    obtain ⟨d, _, rfl⟩ := hd
    simp [VariableDescriptor.remove] at hr
  · intro d hd
    rw [hregisters, if_pos rfl, Option.map_eq_some_iff] at hd
    obtain ⟨_, _, rfl⟩ := hd
    rfl
  · rw [hregisters, if_pos rfl, Option.isSome_map]
  · intro s hs
    rw [hregisters, if_neg hs]
  · intro id
    rw [helsewhere, Option.map_map]
    rfl

private theorem Evicted.holds_iff {a left : Allocator} {r : Register} (h : a.Evicted r left)
    (id : Nat) (l : Location) : left.Holds id l ↔ a.Holds id l ∧ l ≠ .register r := by
  have hview : ∀ b : Allocator, b.Holds id l ↔
      ∃ ls, b.variableTable[id]?.map VariableDescriptor.locations = some ls ∧ l ∈ ls := by
    intro b
    unfold Holds
    cases b.variableTable[id]? <;> simp
  rw [hview, h.elsewhere, hview]
  cases a.variableTable[id]? <;> simp

private theorem Evicted.mirrored {a left : Allocator} {r : Register} (h : a.Evicted r left)
    (ha : a.Mirrored) : left.Mirrored := by
  refine ⟨?_, ?_, ?_⟩
  · intro s id
    rw [h.holds_iff]
    by_cases hs : s = r
    · subst hs
      simp only [ne_eq, not_true_eq_false, and_false, iff_false]
      rintro ⟨d, hd, hmem⟩
      have hfree := h.free d hd
      rw [RegisterDescriptor.isFree, List.isEmpty_iff] at hfree
      rw [hfree] at hmem
      cases hmem
    · rw [Lists, h.registers s hs, ← Lists, ha.lists_iff_holds]
      simp [hs]
  · intro s d hd
    by_cases hs : s = r
    · have hfree := h.free d (hs ▸ hd)
      rw [RegisterDescriptor.isFree, List.isEmpty_iff] at hfree
      rw [hfree]
      exact List.nodup_nil
    · exact ha.nodup s d (h.registers s hs ▸ hd)
  · intro id d hd
    have hkept := h.elsewhere id
    rw [hd, Option.map_some] at hkept
    obtain ⟨d', hd', he⟩ := Option.map_eq_some_iff.mp hkept.symm
    rw [← he]
    exact Nat.le_trans (List.length_filter_le _ _) (ha.one_place id d' hd')

private theorem mirrored_allocate {a : Allocator} (h : a.Mirrored) (g : FlowGraph)
    (t : SymbolTable) : (a.allocate g t).allocator.Mirrored := by
  cases houtcome : outcome a.pools g t with
  | error e =>
    rw [allocate_of_error houtcome]
    exact ⟨h.lists_iff_holds, h.nodup, h.one_place⟩
  | ok placed =>
    rw [allocate_of_ok houtcome]
    exact a.mirrored_settle g.vars (ids_of_outcome houtcome)

private theorem mirrored_serve {a : Allocator} (h : a.Mirrored) (c : Call) :
    (a.serve c).Mirrored := by
  cases c with
  | run f t =>
    simp only [serve, run]
    cases FlowGraph.build f t with
    | error e => exact h
    | ok g => exact mirrored_allocate h g t
  | allocate g t => exact mirrored_allocate h g t
  | free r => exact (evicted_freeRegister h r).mirrored h

private theorem mirrored_foldl_serve {a : Allocator} (h : a.Mirrored) (calls : List Call) :
    (calls.foldl serve a).Mirrored := by
  induction calls generalizing a with
  | nil => exact h
  | cons c calls ih => exact ih (mirrored_serve h c)

/-- Whatever an allocator has served, its two tables are each other's inverse, and an eviction takes
the register out of both and leaves the rest. -/
theorem tables_stay_mirrored (pools : Pools) (calls : List Call) :
    (after pools calls).Mirrored ∧
      ∀ r, (after pools calls).Evicted r ((after pools calls).freeRegister r) := by
  have h := mirrored_foldl_serve (mirrored_new pools) calls
  exact ⟨h, fun r => evicted_freeRegister h r⟩

-- a run that spills, one that is refused, and an eviction from the tables of the first
example :
    let a := after (Pools.standard.take 2 0)
      [.run spin spinTable, .run spin (.ofDeclarations [] [none]), .free ⟨0, .general⟩]
    a.registerTable = [(⟨0, .general⟩, ⟨[]⟩), (⟨3, .general⟩, ⟨[1]⟩)] ∧
    a.variableTable = #[⟨[.memory 0]⟩, ⟨[.register ⟨3, .general⟩]⟩, ⟨[]⟩] := by
  decide +kernel

end Allocator

end RegisterColoring
