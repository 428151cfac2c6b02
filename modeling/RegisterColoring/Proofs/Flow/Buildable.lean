import RegisterColoring.Proofs.Flow.Built
/-!
# Functions whose flow graph can be built

The computed bounds always tile the code. So a flow graph can be built as soon as the table holds
what the instructions access, and then it numbers just that, in the order of first mention. Else
the first missing variable is reported.
-/
namespace RegisterColoring

namespace Operand

private theorem mem_reads_of_stored (o : Operand) : ∀ v ∈ o.stored, v ∈ o.reads := by
  cases o <;> simp [stored, reads]

private theorem mem_reads_of_storeReads (o : Operand) : ∀ v ∈ o.storeReads, v ∈ o.reads := by
  cases o <;> simp [storeReads, reads]

end Operand

namespace Instruction

private theorem mem_operands_of_getElem? {i : Instruction} {view : Operand → List Variable}
    (hview : ∀ o, ∀ v ∈ view o, v ∈ o.reads) (k : Nat) :
    ∀ v ∈ (i.operands[k]?.map view).getD [], v ∈ i.operands.flatMap Operand.reads := by
  intro v hv
  cases ho : i.operands[k]? with
  | none =>
    rw [ho] at hv
    cases hv
  | some o =>
    rw [ho] at hv
    exact List.mem_flatMap.mpr ⟨o, List.mem_of_getElem? ho, hview o v hv⟩

private theorem map_snd_accesses (i : Instruction) :
    i.accesses.map Prod.snd = i.defs ++ i.uses := by
  simp [accesses, Function.comp_def]

theorem mem_of_accesses {i : Instruction} {access : Access} {v : Variable}
    (h : (access, v) ∈ i.accesses) : v ∈ i.defs ++ i.uses := by
  rw [← i.map_snd_accesses]
  exact List.mem_map_of_mem h

private theorem mem_operands_of_accesses {i : Instruction} {access : Access} {v : Variable}
    (h : (access, v) ∈ i.accesses) : v ∈ i.operands.flatMap Operand.reads := by
  have hreads : ∀ k, ∀ v ∈ i.readsAt k, v ∈ i.operands.flatMap Operand.reads :=
    mem_operands_of_getElem? fun _ _ hv => hv
  have hstored : ∀ k, ∀ v ∈ i.storedAt k, v ∈ i.operands.flatMap Operand.reads :=
    mem_operands_of_getElem? Operand.mem_reads_of_stored
  have hstoreReads : ∀ k, ∀ v ∈ i.storeReadsAt k, v ∈ i.operands.flatMap Operand.reads :=
    mem_operands_of_getElem? Operand.mem_reads_of_storeReads
  have hdefs : v ∈ i.defs → v ∈ i.operands.flatMap Operand.reads := by
    unfold defs
    split <;> grind
  have huses : v ∈ i.uses → v ∈ i.operands.flatMap Operand.reads := by
    unfold uses
    split <;> grind
  exact (List.mem_append.mp (mem_of_accesses h)).elim hdefs huses

end Instruction

namespace Bounds

private theorem tiles_partitionFrom {first line : Nat} (hle : first ≤ line)
    {rest : List Instruction} (hlast : rest = [] → first = line) :
    Tiles (line + rest.length) first (partitionFrom first line rest) := by
  induction rest generalizing first line with
  | nil => exact hlast rfl
  | cons i rest ih =>
    have hlength : line + (i :: rest).length = line + 1 + rest.length := by
      rw [List.length_cons]
      omega
    rw [hlength, partitionFrom]
    split
    · exact ⟨rfl, hle, by simp only; omega, ih (Nat.le_refl _) fun _ => rfl⟩
    · next hends =>
      refine ih (Nat.le_succ_of_le hle) fun hnil => ?_
      simp [hnil] at hends

theorem tiles_partition (code : List Instruction) : Tiles code.length 0 (partition code) := by
  have htiles : Tiles (0 + code.length) 0 (partition code) :=
    tiles_partitionFrom (Nat.le_refl 0) fun _ => rfl
  rwa [Nat.zero_add] at htiles

private theorem Tiles.flatMap_lines {code : List Instruction} {start : Nat} {bounds : List Bounds}
    (h : Tiles code.length start bounds) :
    (bounds.map (Block.ofBounds code)).flatMap Block.lines =
      List.range' start (code.length - start) := by
  induction bounds generalizing start with
  | nil =>
    have hend : start = code.length := h
    simp [hend]
  | cons b rest ih =>
    obtain ⟨rfl, hle, hlt, hrest⟩ := h
    have hsplit : code.length - b.first =
        (b.last + 1 - b.first) + (code.length - (b.last + 1)) := by omega
    have hnext : b.first + (b.last + 1 - b.first) = b.last + 1 := by omega
    rw [List.map_cons, List.flatMap_cons, ih hrest, hsplit, ← List.range'_append_1, hnext]
    rfl

end Bounds

def accessedAt (code : List Instruction) (line : Nat) : List Variable :=
  (code[line]?.map fun i => i.defs ++ i.uses).getD []

/-- What the instructions define and use, line by line, the definitions of a line first. -/
def Function.accessed (f : Function) : List Variable := f.code.flatMap fun i => i.defs ++ i.uses

private theorem flatMap_accessedAt (code : List Instruction) :
    (List.range code.length).flatMap (accessedAt code) = code.flatMap fun i => i.defs ++ i.uses := by
  have hcode : (List.range code.length).map (fun line => code[line]?) = code.map some := by
    apply List.ext_getElem?
    intro line
    by_cases hline : line < code.length <;> simp [hline]
  have hsome : code.flatMap (fun i => i.defs ++ i.uses) =
      (code.map some).flatMap fun i => (i.map fun i => i.defs ++ i.uses).getD [] := by
    rw [List.flatMap_map]
    rfl
  rw [hsome, ← hcode, List.flatMap_map]
  rfl

theorem mem_accessed {f : Function} {v : Variable} :
    v ∈ f.accessed ↔ ∃ access line, Accesses f.code access line v := by
  simp only [Function.accessed, List.mem_flatMap, ← Instruction.map_snd_accesses, List.mem_map]
  constructor
  · rintro ⟨i, hi, ⟨access, v⟩, haccess, rfl⟩
    obtain ⟨line, hline⟩ := List.mem_iff_getElem?.mp hi
    exact ⟨access, line, i, hline, haccess⟩
  · rintro ⟨access, line, i, hline, haccess⟩
    exact ⟨i, List.mem_of_getElem? hline, (access, v), haccess, rfl⟩

theorem FlowGraph.mem_mentioned_of_accesses {f : Function} {access : Access} {line : Nat}
    {v : Variable} (h : Accesses f.code access line v) : v ∈ f.mentioned := by
  obtain ⟨i, hi, haccess⟩ := h
  exact List.mem_flatMap.mpr
    ⟨i, List.mem_of_getElem? hi, Instruction.mem_operands_of_accesses haccess⟩

namespace Recorded
variable {α β : Type} {t : SymbolTable} {function : String} {vs ws : List Variable}
  {vars : Numbering} {r : Recorded α} {s : Recorded β}

/-- The recording numbered the variables in order, or was ended by the first one of them that is
not in the table. -/
structure Follows (t : SymbolTable) (function : String) (vs : List Variable) (vars : Numbering)
    (r : Recorded α) : Prop where
  error : r.error =
    (vs.find? fun v => !t.contains v).map fun v => .unknownVariable function v.handle
  vars : r.error = none → r.vars = vars.internAll vs

private theorem Follows.append (h : Follows t function vs vars r) (hok : r.error = none)
    (h' : Follows t function ws r.vars s) : Follows t function (vs ++ ws) vars s where
  error := by
    have hnone := h.error.symm.trans hok
    rw [Option.map_eq_none_iff] at hnone
    rw [h'.error, List.find?_append, hnone, Option.none_or]
  vars hs := by rw [h'.vars hs, h.vars hok, Numbering.internAll_append]

private theorem Follows.stop (h : Follows t function vs vars r) {e : AllocError}
    (hr : r.error = some e) (hs : s.error = some e) (ws : List Variable) : Follows t function
    (vs ++ ws) vars s where
  error := by
    obtain ⟨v, hv, he⟩ := Option.map_eq_some_iff.mp (h.error.symm.trans hr)
    rw [hs, List.find?_append, hv, Option.some_or, Option.map_some, he]
  vars hnone := by
    rw [hs] at hnone
    cases hnone

private theorem accesses_follows (t : SymbolTable) (function : String) (line : Nat)
    (todo : List (Access × Variable)) (vars : Numbering) (b : Block) :
    Follows t function (todo.map Prod.snd) vars (accesses t function line todo vars b) := by
  induction todo generalizing vars b with
  | nil => exact ⟨rfl, fun _ => rfl⟩
  | cons p todo ih =>
    rw [accesses, List.map_cons]
    split
    · next hp =>
      obtain ⟨herror, hvars⟩ := ih (vars.intern p.2).2 (b.record p.1 line (vars.intern p.2).1)
      refine ⟨?_, hvars⟩
      rw [List.find?_cons_of_neg (by simp [hp])]
      exact herror
    · next hp =>
      refine ⟨?_, fun h => by cases h⟩
      rw [List.find?_cons_of_pos (by simpa using hp)]
      rfl

variable {f : Function}

private theorem lines_follows (t : SymbolTable) {todo : List Nat}
    (hlines : ∀ line ∈ todo, line < f.code.length) (vars : Numbering) (b : Block) :
    Follows t f.name (todo.flatMap (accessedAt f.code)) vars (lines t f todo vars b) := by
  induction todo generalizing vars b with
  | nil => exact ⟨rfl, fun _ => rfl⟩
  | cons line todo ih =>
    obtain ⟨i, hi⟩ : ∃ i, f.code[line]? = some i :=
      ⟨_, List.getElem?_eq_getElem (hlines line (by simp))⟩
    have hline : accessedAt f.code line = i.accesses.map Prod.snd := by
      rw [accessedAt, hi, Instruction.map_snd_accesses]
      rfl
    have hfirst := accesses_follows t f.name line i.accesses vars b
    rw [lines, hi, List.flatMap_cons, hline]
    simp only
    split
    · next vars' b' hok =>
      rw [hok] at hfirst
      exact hfirst.append rfl (ih (fun line' hl => hlines line' (by simp [hl])) vars' b')
    · next hstop =>
      cases he : (accesses t f.name line i.accesses vars b).error with
      | none => exact (hstop _ _ (by rw [← he])).elim
      | some e => exact hfirst.stop he he _

private theorem blocks_follows (t : SymbolTable) {todo : List Block}
    (hlines : ∀ b ∈ todo, ∀ line ∈ b.lines, line < f.code.length) (vars : Numbering) :
    Follows t f.name ((todo.flatMap Block.lines).flatMap (accessedAt f.code)) vars
      (blocks t f todo vars) := by
  induction todo generalizing vars with
  | nil => exact ⟨rfl, fun _ => rfl⟩
  | cons b todo ih =>
    have hfirst := lines_follows t (hlines b (by simp)) vars b
    rw [blocks, List.flatMap_cons, List.flatMap_append]
    split
    · next vars' b' hok =>
      rw [hok] at hfirst
      obtain ⟨herror, hvars⟩ := ih (fun c hc => hlines c (by simp [hc])) vars'
      exact hfirst.append rfl ⟨herror, hvars⟩
    · next vars' b' e hstop =>
      rw [hstop] at hfirst
      exact hfirst.stop rfl rfl _

end Recorded

namespace FlowGraph
variable {f : Function} {t : SymbolTable} {bounds : List Bounds}

theorem record_follows (t : SymbolTable) (htiles : Bounds.Tiles f.code.length 0 bounds) :
    Recorded.Follows t f.name f.accessed .empty
      (Recorded.blocks t f (bounds.map (Block.ofBounds f.code)) .empty) := by
  have hlines : ∀ b ∈ bounds.map (Block.ofBounds f.code), ∀ line ∈ b.lines,
      line < f.code.length := by
    intro b hb line hline
    obtain ⟨c, hc, rfl⟩ := List.mem_map.mp hb
    have hle : line ≤ c.last := (Block.mem_lines.mp hline).2
    have hlt := (htiles.of_mem hc).2.2
    omega
  have hfollows := Recorded.blocks_follows t hlines .empty
  rw [htiles.flatMap_lines, Nat.sub_zero, ← List.range_eq_range', flatMap_accessedAt] at hfollows
  exact hfollows

theorem vars_of_ofBounds {g : FlowGraph} (h : ofBounds f t bounds = .ok g) :
    g.vars.toList = f.accessed.eraseDups := by
  obtain ⟨htiles, _, hrecorded⟩ := record_eq_ok h
  have hvars := (record_follows t htiles).vars (by rw [hrecorded])
  rw [hrecorded] at hvars
  rw [← Numbering.toList_internAll_empty, ← hvars]

theorem exists_accesses {g : FlowGraph} (h : ofBounds f t bounds = .ok g)
    {v : Variable} (hv : v ∈ g.vars.toList) : ∃ access line, Accesses f.code access line v := by
  rw [vars_of_ofBounds h, List.mem_eraseDups] at hv
  exact mem_accessed.mp hv

theorem mem_mentioned_of_ofBounds {g : FlowGraph} (h : ofBounds f t bounds = .ok g) {v : Variable}
    (hv : v ∈ g.vars.toList) : v ∈ f.mentioned := by
  obtain ⟨access, line, haccess⟩ := exists_accesses h hv
  exact mem_mentioned_of_accesses haccess

/-- With bounds that tile the code, only a variable that is not in the table can be in the way. -/
theorem ofBounds_of_tiles (htiles : Bounds.Tiles f.code.length 0 bounds) :
    (∀ v, f.accessed.find? (fun v => !t.contains v) = some v →
      ofBounds f t bounds = .error (.unknownVariable f.name v.handle)) ∧
    (f.accessed.find? (fun v => !t.contains v) = none → ∃ g, ofBounds f t bounds = .ok g) := by
  have herror : ((linked f bounds).record f t).2 = (f.accessed.find? fun v => !t.contains v).map
      fun v => .unknownVariable f.name v.handle := (record_follows t htiles).error
  rw [ofBounds, (Bounds.check_eq_ok_iff _ _ _ _).mpr htiles]
  simp only
  constructor
  · intro v hv
    rw [hv] at herror
    split
    · next hok =>
      rw [hok] at herror
      cases herror
    · next hstop =>
      rw [hstop] at herror
      exact congrArg Except.error (Option.some.inj herror)
  · intro hnone
    rw [hnone] at herror
    split
    · exact ⟨_, rfl⟩
    · next hstop =>
      rw [hstop] at herror
      cases herror

theorem exists_build (h : ∀ access line v, Accesses f.code access line v → t.contains v = true) :
    ∃ g, build f t = .ok g := by
  apply (ofBounds_of_tiles (Bounds.tiles_partition f.code)).2
  rw [List.find?_eq_none]
  intro v hv
  obtain ⟨access, line, haccess⟩ := mem_accessed.mp hv
  simp [h access line v haccess]

end FlowGraph

end RegisterColoring
