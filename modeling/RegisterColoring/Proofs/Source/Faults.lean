import RegisterColoring.Proofs.Source.Steps
/-!
# Reading meets no fault

The reader only uses scopes that it has opened itself, so every scope and every parent is in the
table. What it stores are variables that it has found there.
-/
namespace RegisterColoring.Source
open Text

def Faultless {α : Type} (x : Except Refusal α) : Prop :=
  ∀ cause, x ≠ .error (.symbol (.fault cause))

private theorem faultless_ok {α : Type} (a : α) : Faultless (.ok a) := by
  intro cause h
  cases h

private theorem Faultless.bind {α β : Type} {x : Except Refusal α} {f : α → Except Refusal β}
    (hx : Faultless x) (hf : ∀ a, Faultless (f a)) : Faultless (x >>= f) := by
  intro cause h
  obtain hfault | ⟨a, _, hfault⟩ := (bind_eq_error_iff _ _ _).mp h
  · exact hx cause hfault
  · exact hf a cause hfault

private theorem faultless_mapM {α β : Type} {f : α → Except Refusal β} (hf : ∀ a, Faultless (f a))
    (xs : List α) : Faultless (xs.mapM f) := by
  intro cause h
  obtain ⟨x, _, hfault⟩ := exists_of_mapM_eq_error h
  exact hf x cause hfault

section Names
variable {names : Names} (hnames : ∀ name, ∃ found, names name = .ok found)
include hnames

private theorem faultless_resolve (text name : List Char) :
    Faultless (resolve names text name) := by
  intro cause h
  obtain ⟨found, hfound⟩ := hnames (String.ofList name)
  unfold resolve at h
  rw [hfound] at h
  split at h
  · cases found <;> cases h
  · cases h

private theorem faultless_readPlain (text : List Char) : Faultless (readPlain names text) := by
  unfold readPlain
  split
  · split
    · exact (faultless_resolve hnames _ _).bind fun _ => faultless_ok _
    · intro cause h
      cases h
  · exact (faultless_resolve hnames _ _).bind fun _ => faultless_ok _

private theorem faultless_readOperand (text : List Char) : Faultless (readOperand names text) := by
  fun_induction readOperand names text with
  | case1 text hliteral => exact faultless_ok _
  | case2 text hliteral hplain => exact faultless_readPlain hnames text
  | case3 text hliteral base hsplit =>
    intro cause h
    cases h
  | case4 text hliteral base index hsplit ih =>
    exact (faultless_resolve hnames _ _).bind fun _ => ih.bind fun _ => faultless_ok _

private theorem faultless_readInstruction (line : List Char) :
    Faultless (Reader.readInstruction names line) := by
  have hlabel : ∀ text, Faultless (readLabel text) := by
    intro text cause h
    unfold readLabel at h
    split at h <;> cases h
  have hlineLabel : ∀ marked, Faultless (Reader.readLineLabel marked) := by
    intro marked cause h
    cases marked with
    | none => cases h
    | some marked =>
      simp only [Reader.readLineLabel] at h
      split at h <;> cases h
  have hoperands : ∀ opcode texts, Faultless (readOperands names opcode texts) := by
    intro opcode texts
    refine faultless_mapM (fun p => ?_) _
    obtain ⟨text, k⟩ := p
    simp only
    split
    · exact hlabel text
    · exact faultless_readOperand hnames text
  unfold Reader.readInstruction
  refine (hlineLabel _).bind fun label => ?_
  obtain ⟨word, args⟩ := splitWord (splitLabel line).2
  simp only
  split
  · intro cause h
    cases h
  · exact (hoperands _ _).bind fun _ => faultless_ok _

end Names

namespace Reader

private theorem Sound.faultless_direct {r : Reader} (h : r.Sound) (d : Directive) :
    Faultless (r.direct d) := by
  intro cause hfault
  cases d with
  | openFunction name =>
    rw [direct] at hfault
    split at hfault <;> cases hfault
  | closeFunction =>
    rw [direct] at hfault
    split at hfault
    · cases hfault
    · split at hfault <;> cases hfault
  | declare name text =>
    -- the innermost scope is in the table, since its parent is
    obtain ⟨rest, hrest⟩ := r.scopes_eq
    rw [Sound, hrest] at h
    have hscope := SymbolTable.lt_size_of_parent? h.exists_parent
    rw [direct] at hfault
    split at hfault
    · cases hfault
    · split at hfault
      · next hdeclare =>
        obtain ⟨rfl, _⟩ := (SymbolTable.declare_eq_error_iff hscope _ _ _).mp hdeclare
        cases hfault
      · cases hfault
  | openScope =>
    rw [direct] at hfault
    split at hfault <;> cases hfault
  | closeScope =>
    rw [direct] at hfault
    split at hfault
    · cases hfault
    · split at hfault <;> cases hfault

private theorem Sound.faultless_readLine {r : Reader} (h : r.Sound) (line : List Char) :
    Faultless (r.readLine line) := by
  unfold readLine
  split
  · exact faultless_ok r
  · split
    · exact h.faultless_direct _
    · intro cause hfault
      cases hfault
  · refine (faultless_readInstruction (fun name => ⟨_, h.names name⟩) _).bind fun i cause hfault => ?_
    unfold append at hfault
    split at hfault <;> cases hfault

private theorem Sound.readLines_ne_fault {r : Reader} (h : r.Sound) (number : Nat)
    (text : List (List Char)) (line : Nat) (cause : Fault) :
    r.readLines number text ≠ .error ⟨line, .symbol (.fault cause)⟩ := by
  induction text generalizing r number with
  | nil =>
    intro hfault
    cases hfault
  | cons first text ih =>
    intro hfault
    rw [readLines] at hfault
    split at hfault
    · next hrefused =>
      obtain ⟨_, hrefusal⟩ := ReadError.mk.inj (Except.error.inj hfault)
      exact h.faultless_readLine first cause (hrefused.trans (congrArg Except.error hrefusal))
    · next hread => exact ih (h.step (step_of_readLine hread)) _ hfault

end Reader

theorem readProgram_ne_fault (source : String) (line : Nat) (cause : Fault) :
    readProgram source ≠ .error ⟨line, .symbol (.fault cause)⟩ := by
  intro hfault
  simp only [readProgram] at hfault
  split at hfault
  · next hrefused =>
    obtain rfl := Except.error.inj hfault
    exact Reader.sound_start.readLines_ne_fault 1 _ line cause hrefused
  · split at hfault <;> cases hfault

private theorem SpellsAt.exists_name {binds : String → Variable → Prop} {opcode : Opcode} {k : Nat}
    {text : List Char} {operand : Operand} (h : SpellsAt binds opcode k text operand) :
    ∀ v ∈ operand.reads, ∃ name, binds name v := by
  unfold SpellsAt at h
  split at h
  · rw [h.2]
    intro v hv
    cases hv
  · exact h.exists_name

private theorem SpellsInstruction.exists_name {binds : String → Variable → Prop} {line : List Char}
    {i : Instruction} (h : SpellsInstruction binds line i) :
    ∀ v ∈ i.operands.flatMap Operand.reads, ∃ name, binds name v := by
  intro v hv
  obtain ⟨operand, hoperand, hv⟩ := List.mem_flatMap.mp hv
  obtain ⟨k, hk, rfl⟩ := List.mem_iff_getElem.mp hoperand
  have hspells := h.operands.get (h.operands.length_eq ▸ hk) hk
  exact hspells.exists_name v hv

namespace Reader

private theorem Step.contains {r r' : Reader} {l : Line} (h : r.Step r' l)
    (hr : ∀ i ∈ r.code, ∀ v ∈ i.operands.flatMap Operand.reads,
      r.program.symbols.contains v = true) :
    ∀ i ∈ r'.code, ∀ v ∈ i.operands.flatMap Operand.reads,
      r'.program.symbols.contains v = true := by
  intro i hi v hv
  have hextends := h.table_extends
  cases h with
  | blank hr' => exact hextends.contains (hr i (hr' ▸ hi) v hv)
  | opens _ _ _ hcode => exact hextends.contains (hr i (hcode ▸ hi) v hv)
  | closes _ _ _ hcode => exact hextends.contains (hr i (hcode ▸ hi) v hv)
  | declares _ _ _ hcode => exact hextends.contains (hr i (hcode ▸ hi) v hv)
  | instruction hread _ _ hcode =>
    rw [hcode] at hi
    refine hextends.contains ?_
    rcases List.mem_append.mp hi with hi | hi
    · exact hr i hi v hv
    · obtain rfl := List.mem_singleton.mp hi
      obtain ⟨name, hname⟩ := ((readInstruction_eq_ok_iff _ _ _).mp hread).exists_name v hv
      exact SymbolTable.contains_of_lookup hname

/-- The table holds every variable that an instruction mentions. -/
theorem Reaches.contains {src : List Line} {n : Nat} {r : Reader} (h : Reaches src n r) :
    ∀ i ∈ r.code, ∀ v ∈ i.operands.flatMap Operand.reads, r.program.symbols.contains v = true := by
  induction h with
  | start =>
    intro i hi
    cases hi
  | line _ _ hstep ih => exact hstep.contains ih

end Reader

theorem contains_of_mentioned {source : String} {p : Program} (h : readProgram source = .ok p)
    {f : Function} (hf : f ∈ p.functions) {v : Variable} (hv : v ∈ f.mentioned) :
    p.symbols.contains v = true := by
  obtain ⟨r, hreach, rfl, _⟩ := exists_reaches h
  obtain ⟨i, hi, hv⟩ := List.mem_flatMap.mp hv
  exact hreach.contains i (List.mem_append_left _ (List.mem_flatMap.mpr ⟨f, hf, hi⟩)) v hv

end RegisterColoring.Source
