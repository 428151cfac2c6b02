import RegisterColoring.Proofs.Sequence
import RegisterColoring.Proofs.Text
import RegisterColoring.Source.Reader
/-!
# How operands and instructions are spelled

The reader accepts exactly the texts of a small grammar. What a name stands for is left open, so the
grammar can be read with the names of a symbol table or with those of the source text.
-/
namespace RegisterColoring.Source
open Text

/-- The text of an operand in a position where no label stands. -/
inductive Spells (binds : String → Variable → Prop) : List Char → Operand → Prop
  | literal {text : List Char} (h : isLiteral text = true) :
    Spells binds text (.literal (String.ofList text))
  | var {name : List Char} {v : Variable} (hname : isIdentifier name = true)
    (hword : isLiteral name = false) (hv : binds (String.ofList name) v) :
    Spells binds name (.var v)
  | member {base field : List Char} {v : Variable} (hbase : isIdentifier base = true)
    (hfield : isIdentifier field = true) (hv : binds (String.ofList base) v) :
    Spells binds (base ++ '.' :: field) (.member v (String.ofList field))
  | element {base inner : List Char} {v : Variable} {index : Operand}
    (hbase : isIdentifier base = true) (hv : binds (String.ofList base) v)
    (hindex : Spells binds (trim inner) index) :
    Spells binds (base ++ '[' :: (inner ++ [']'])) (.element v index)

private theorem resolve_eq_ok_iff (names : Names) (text name : List Char) (v : Variable) :
    resolve names text name = .ok v ↔
      isIdentifier name = true ∧ names (String.ofList name) = .ok (some v) := by
  unfold resolve
  split
  · next h =>
    cases names (String.ofList name) with
    | error e => simp
    | ok found => cases found <;> simp [h]
  · next h => simp [h]

private theorem isDigit_of_isIdentifier {c : Char} {cs : List Char}
    (h : isIdentifier (c :: cs) = true) : c.isDigit = false := by
  rw [Bool.eq_false_iff]
  intro hdigit
  have hdigit' := toNat_of_isDigit hdigit
  rcases (Bool.or_eq_true _ _).mp ((Bool.and_eq_true _ _).mp h).1 with halpha | hunderscore
  · have halpha' := toNat_of_isAlpha halpha
    omega
  · rw [beq_iff_eq.mp hunderscore] at hdigit
    exact absurd hdigit (by decide)

theorem ne_of_mem_identifier {name : List Char} (h : isIdentifier name = true) {c d : Char}
    (hc : c ∈ name) (hd : isIdentifierRest d = false) : c ≠ d := by
  rintro rfl
  rw [isIdentifierRest_of_mem h hc] at hd
  cases hd

private theorem isLiteral_append_of_isIdentifier {base rest : List Char} {c : Char}
    (hbase : isIdentifier base = true) (hc : isIdentifierRest c = false) :
    isLiteral (base ++ c :: rest) = false := by
  cases base with
  | nil => cases hbase
  | cons b bs =>
    have hdigit := isDigit_of_isIdentifier hbase
    have hne : ∀ d, isIdentifierRest d = false → b ≠ d :=
      fun d => ne_of_mem_identifier hbase (by simp)
    have hword : ∀ word : List Char, word.all isIdentifierRest = true →
        b :: bs ++ c :: rest ≠ word := by
      rintro _ hword rfl
      simp [hc] at hword
    have hquoted : ∀ q, isIdentifierRest q = false → isQuoted q (b :: bs ++ c :: rest) = false := by
      intro q hq
      simp [isQuoted, hne q hq]
    simp only [isLiteral, Bool.or_eq_false_iff, beq_eq_false_iff_ne]
    refine ⟨⟨⟨⟨⟨hword _ (by decide), hword _ (by decide)⟩, hword _ (by decide)⟩,
      hquoted '"' (by decide)⟩, hquoted '\'' (by decide)⟩, ?_⟩
    split
    · next digits he => exact absurd (List.cons.inj he).1 (hne '-' (by decide))
    · simp [isNumeral, hdigit]

private theorem splitElement_eq_none {text : List Char} (h : ∀ c ∈ text, (c == '[') = false) :
    splitElement text = none := by
  rw [splitElement, cut_eq_none h]
  rfl

private theorem splitElement_eq_some_iff (text base index : List Char) :
    splitElement text = some (base, some index) ↔ ∃ inner, index = trim inner ∧
      text = base ++ '[' :: (inner ++ [']']) ∧ cut (· == '[') text = some (base, inner ++ [']']) := by
  simp only [splitElement, Option.map_eq_some_iff, Prod.mk.injEq]
  constructor
  · rintro ⟨⟨front, rest⟩, hcut, rfl, inner, hinner, rfl⟩
    obtain ⟨c, hc, rfl⟩ := cut_eq_some hcut
    obtain rfl := dropLast?_eq_some hinner
    exact ⟨inner, rfl, by rw [beq_iff_eq.mp hc], hcut⟩
  · rintro ⟨inner, rfl, _, hcut⟩
    exact ⟨_, hcut, rfl, inner, dropLast?_concat _ _, rfl⟩

section Reading
variable {names : Names} {text : List Char} {operand : Operand}

private theorem spells_of_readPlain (hliteral : isLiteral text = false)
    (h : readPlain names text = .ok operand) :
    Spells (fun name v => names name = .ok (some v)) text operand := by
  unfold readPlain at h
  split at h
  · next base field hcut =>
    split at h
    · next hfield =>
      obtain ⟨v, hv, he⟩ := (bind_eq_ok_iff _ _ _).mp h
      obtain ⟨hbase, hname⟩ := (resolve_eq_ok_iff _ _ _ _).mp hv
      obtain ⟨c, hc, rfl⟩ := cut_eq_some hcut
      obtain rfl := beq_iff_eq.mp hc
      obtain rfl := Except.ok.inj he
      exact .member hbase hfield hname
    · cases h
  · obtain ⟨v, hv, he⟩ := (bind_eq_ok_iff _ _ _).mp h
    obtain ⟨hname, hbound⟩ := (resolve_eq_ok_iff _ _ _ _).mp hv
    obtain rfl := Except.ok.inj he
    exact .var hname hliteral hbound

private theorem spells_of_readOperand (h : readOperand names text = .ok operand) :
    Spells (fun name v => names name = .ok (some v)) text operand := by
  fun_induction readOperand names text generalizing operand with
  | case1 text hliteral =>
    obtain rfl := Except.ok.inj h
    exact .literal hliteral
  | case2 text hliteral hplain => exact spells_of_readPlain (by simpa using hliteral) h
  | case3 text hliteral base hsplit => cases h
  | case4 text hliteral base index hsplit ih =>
    obtain ⟨inner, rfl, rfl, _⟩ := (splitElement_eq_some_iff _ _ _).mp hsplit
    obtain ⟨v, hv, hrest⟩ := (bind_eq_ok_iff _ _ _).mp h
    obtain ⟨inside, hinside, he⟩ := (bind_eq_ok_iff _ _ _).mp hrest
    obtain ⟨hbase, hname⟩ := (resolve_eq_ok_iff _ _ _ _).mp hv
    obtain rfl := Except.ok.inj he
    exact .element hbase hname (ih hinside)

private theorem readOperand_plain (hliteral : isLiteral text = false)
    (h : splitElement text = none) :
    readOperand names text = readPlain names text := by
  rw [readOperand, if_neg (by simp [hliteral])]
  split <;> simp_all

private theorem readOperand_element {base index : List Char} (hliteral : isLiteral text = false)
    (h : splitElement text = some (base, some index)) :
    readOperand names text = (do
      let v ← resolve names text base
      let operand ← readOperand names index
      .ok (.element v operand)) := by
  rw [readOperand, if_neg (by simp [hliteral])]
  split <;> simp_all

private theorem readOperand_of_spells
    (h : Spells (fun name v => names name = .ok (some v)) text operand) :
    readOperand names text = .ok operand := by
  -- no identifier holds one of the characters at which operands are cut
  have hfree : ∀ {name : List Char} (d : Char), isIdentifier name = true →
      isIdentifierRest d = false → ∀ c ∈ name, (c == d) = false :=
    fun d hname hd c hc => beq_false_of_ne (ne_of_mem_identifier hname hc hd)
  induction h with
  | literal hliteral => rw [readOperand, if_pos hliteral]
  | @var name v hname hword hv =>
    rw [readOperand_plain hword (splitElement_eq_none (hfree '[' hname (by decide))), readPlain,
      cut_eq_none (hfree '.' hname (by decide)), (resolve_eq_ok_iff _ _ _ v).mpr ⟨hname, hv⟩]
    rfl
  | @member base field v hbase hfield hv =>
    have hbracket : ∀ c ∈ base ++ '.' :: field, (c == '[') = false := by
      intro c hc
      rcases List.mem_append.mp hc with hc | hc
      · exact hfree '[' hbase (by decide) c hc
      · rcases List.mem_cons.mp hc with rfl | hc
        · decide
        · exact hfree '[' hfield (by decide) c hc
    have hcut := cut_append (hfree '.' hbase (by decide)) (beq_self_eq_true '.') field
    rw [readOperand_plain (isLiteral_append_of_isIdentifier hbase (by decide))
      (splitElement_eq_none hbracket), readPlain, hcut]
    simp only [hfield, if_true, (resolve_eq_ok_iff _ _ _ v).mpr ⟨hbase, hv⟩]
    rfl
  | @element base inner v index hbase hv hindex ih =>
    have hcut := cut_append (hfree '[' hbase (by decide)) (beq_self_eq_true '[') (inner ++ [']'])
    rw [readOperand_element (isLiteral_append_of_isIdentifier hbase (by decide))
      ((splitElement_eq_some_iff _ _ _).mpr ⟨inner, rfl, rfl, hcut⟩),
      (resolve_eq_ok_iff _ _ _ v).mpr ⟨hbase, hv⟩, ih]
    rfl

end Reading

private theorem Spells.mono {binds binds' : String → Variable → Prop}
    (hbinds : ∀ name v, binds name v → binds' name v) {text : List Char} {operand : Operand}
    (h : Spells binds text operand) : Spells binds' text operand := by
  induction h with
  | literal hliteral => exact .literal hliteral
  | var hname hword hv => exact .var hname hword (hbinds _ _ hv)
  | member hbase hfield hv => exact .member hbase hfield (hbinds _ _ hv)
  | element hbase hv _ ih => exact .element hbase (hbinds _ _ hv) ih

theorem Spells.exists_name {binds : String → Variable → Prop} {text : List Char} {operand : Operand}
    (h : Spells binds text operand) : ∀ v ∈ operand.reads, ∃ name, binds name v := by
  induction h with
  | literal _ => simp [Operand.reads]
  | var _ _ hv => simpa [Operand.reads] using ⟨_, hv⟩
  | member _ _ hv => simpa [Operand.reads] using ⟨_, hv⟩
  | element _ hv _ ih => simpa [Operand.reads] using ⟨⟨_, hv⟩, ih⟩

def SpellsAt (binds : String → Variable → Prop) (opcode : Opcode) (k : Nat) (text : List Char)
    (operand : Operand) : Prop :=
  if opcode.labelOperand = some k then
    isIdentifier text = true ∧ operand = .label (String.ofList text)
  else Spells binds text operand

def argumentsText (line : List Char) : List Char := (splitWord (splitLabel line).2).2

/-- The text of an instruction: its label, the word for its operation and its operands. -/
structure SpellsInstruction (binds : String → Variable → Prop) (line : List Char)
    (i : Instruction) : Prop where
  label : Reader.readLineLabel (splitLabel line).1 = .ok i.label
  opcode : Opcode.ofText? (String.ofList (Reader.operationWord line)) = some i.opcode
  operands : List.Forall₂ (fun p operand => SpellsAt binds i.opcode p.2 p.1 operand)
    (operandTexts (argumentsText line)).zipIdx i.operands

theorem SpellsInstruction.mono {binds binds' : String → Variable → Prop}
    (hbinds : ∀ name v, binds name v → binds' name v) {line : List Char} {i : Instruction}
    (h : SpellsInstruction binds line i) : SpellsInstruction binds' line i := by
  refine ⟨h.label, h.opcode, h.operands.imp fun p operand hspells => ?_⟩
  unfold SpellsAt at hspells ⊢
  split
  · next hlabel => simpa only [hlabel, if_true] using hspells
  · next hlabel =>
    simp only [hlabel, if_false] at hspells
    exact hspells.mono hbinds

private theorem readLabel_eq_ok_iff (text : List Char) (operand : Operand) :
    readLabel text = .ok operand ↔
      isIdentifier text = true ∧ operand = .label (String.ofList text) := by
  unfold readLabel
  split
  · next h => simp [h, eq_comm]
  · next h => simp [h]

private theorem readOperands_eq_ok_iff (names : Names) (opcode : Opcode) (texts : List (List Char))
    (operands : List Operand) : readOperands names opcode texts = .ok operands ↔
      List.Forall₂ (fun p operand =>
        SpellsAt (fun name v => names name = .ok (some v)) opcode p.2 p.1 operand)
        texts.zipIdx operands := by
  have hone : ∀ (p : List Char × Nat) operand,
      (if opcode.labelOperand = some p.2 then readLabel p.1 else readOperand names p.1) =
        .ok operand ↔
      SpellsAt (fun name v => names name = .ok (some v)) opcode p.2 p.1 operand := by
    intro p operand
    unfold SpellsAt
    split
    · exact readLabel_eq_ok_iff p.1 operand
    · exact ⟨spells_of_readOperand, readOperand_of_spells⟩
  rw [readOperands, mapM_eq_ok_iff]
  simp only [hone]

theorem readInstruction_eq_ok_iff (names : Names) (line : List Char) (i : Instruction) :
    Reader.readInstruction names line = .ok i ↔
      SpellsInstruction (fun name v => names name = .ok (some v)) line i := by
  unfold Reader.readInstruction
  rw [bind_eq_ok_iff]
  rcases hcut : splitWord (splitLabel line).2 with ⟨word, args⟩
  have hword : Reader.operationWord line = word := congrArg Prod.fst hcut
  have hargs : argumentsText line = args := congrArg Prod.snd hcut
  simp only
  constructor
  · rintro ⟨label, hlabel, h⟩
    split at h
    · cases h
    · next opcode hopcode =>
      obtain ⟨operands, hoperands, he⟩ := (bind_eq_ok_iff _ _ _).mp h
      obtain rfl := Except.ok.inj he
      exact ⟨hlabel, hword ▸ hopcode, hargs ▸ (readOperands_eq_ok_iff _ _ _ _).mp hoperands⟩
  · rintro ⟨hlabel, hopcode, hoperands⟩
    rw [hword] at hopcode
    rw [hargs] at hoperands
    refine ⟨i.label, hlabel, ?_⟩
    rw [hopcode]
    exact (bind_eq_ok_iff _ _ _).mpr
      ⟨i.operands, (readOperands_eq_ok_iff _ _ _ _).mpr hoperands, rfl⟩

end RegisterColoring.Source
