import RegisterColoring.Proofs.Source.Scanning
import RegisterColoring.Proofs.Source.Steps
import RegisterColoring.Proofs.Symbols
/-!
# Reading a printed instruction

An instruction that was read from a line is printed without the odd blanks, colons and comments of
that line, and the printed text is read as the same instruction.
-/
namespace RegisterColoring.Source
open Text

section Operands
variable {binds : String → Variable → Prop} {t : SymbolTable}
  (hnames : ∀ name v, binds name v → t.name v = .ok name)

/-- The text `out` prints the operand, spells it by the same grammar as `text` and differs from `text`
in blanks only. -/
structure Reprints (t : SymbolTable) (grammar : List Char → Operand → Prop) (text : List Char)
    (operand : Operand) (out : List Char) : Prop where
  prints : operand.text t = .ok (String.ofList out)
  spells : grammar out operand
  trimmed : Trimmed out
  ne_nil : out ≠ []
  compact_eq : compact out = compact text

include hnames in
private theorem Spells.exists_reprints {text : List Char} {operand : Operand}
    (h : Spells binds text operand) (htext : Trimmed text) :
    ∃ out, Reprints t (Spells binds) text operand out := by
  induction h with
  | @literal text hliteral =>
    refine ⟨text, rfl, .literal hliteral, htext, ?_, rfl⟩
    rintro rfl
    revert hliteral
    decide
  | @var name v hname hword hv =>
    exact ⟨name, hnames _ _ hv, .var hname hword hv, htext, ne_nil_of_isIdentifier hname, rfl⟩
  | @member base field v hbase hfield hv =>
    refine ⟨_, ?_, .member hbase hfield hv, htext, by simp, rfl⟩
    rw [Operand.text, hnames _ _ hv]
    exact congrArg Except.ok (String.toList_inj.mp (by simp))
  | @element base inner v index hbase hv hindex ih =>
    obtain ⟨out, hout⟩ := ih (trimmed_trim inner)
    refine ⟨base ++ '[' :: (out ++ [']']), ?_, ?_, ?_, by simp, ?_⟩
    · rw [Operand.text, hnames _ _ hv, hout.prints]
      exact congrArg Except.ok (String.toList_inj.mp (by simp))
    · refine .element hbase hv ?_
      rw [hout.trimmed.trim_eq]
      exact hout.spells
    · exact (trimmed_of_isIdentifier hbase).append (trimmed_singleton (c := ']') (by decide))
        (ne_nil_of_isIdentifier hbase) (by simp) ('[' :: out)
    · simp only [compact_append, compact_cons, hout.compact_eq, compact_trim]

include hnames in
private theorem SpellsAt.exists_reprints {opcode : Opcode} {k : Nat} {text : List Char}
    {operand : Operand} (h : SpellsAt binds opcode k text operand) (htext : Trimmed text) :
    ∃ out, Reprints t (SpellsAt binds opcode k) text operand out := by
  by_cases hk : opcode.labelOperand = some k
  · obtain ⟨hname, rfl⟩ : isIdentifier text = true ∧ operand = .label (String.ofList text) := by
      simpa only [SpellsAt, if_pos hk] using h
    refine ⟨text, rfl, h, htext, ne_nil_of_isIdentifier hname, rfl⟩
  · have hspells : Spells binds text operand := by simpa only [SpellsAt, if_neg hk] using h
    obtain ⟨out, hout⟩ := hspells.exists_reprints hnames htext
    refine ⟨out, hout.prints, ?_, hout.trimmed, hout.ne_nil, hout.compact_eq⟩
    simpa only [SpellsAt, if_neg hk] using hout.spells

include hnames in
private theorem exists_reprints {opcode : Opcode} {k : Nat} {texts : List (List Char)}
    {operands : List Operand} (htexts : ∀ text ∈ texts, Trimmed text)
    (h : List.Forall₂ (fun p operand => SpellsAt binds opcode p.2 p.1 operand) (texts.zipIdx k)
      operands) :
    ∃ outs : List (List Char), operands.mapM (·.text t) = .ok (outs.map String.ofList) ∧
      List.Forall₂ (fun p operand => SpellsAt binds opcode p.2 p.1 operand) (outs.zipIdx k)
        operands ∧
      (∀ out ∈ outs, Trimmed out ∧ out ≠ []) ∧ outs.map compact = texts.map compact := by
  -- which grammar holds for an operand depends on its position, so the first position is left open
  induction texts generalizing k operands with
  | nil =>
    obtain rfl := List.forall₂_nil_left_iff.mp h
    exact ⟨[], rfl, .nil, by simp, rfl⟩
  | cons text texts ih =>
    rw [List.zipIdx_cons] at h
    obtain ⟨operand, rest, hfirst, hrest, rfl⟩ := List.forall₂_cons_left_iff.mp h
    obtain ⟨out, hout⟩ := hfirst.exists_reprints hnames (htexts text (by simp))
    obtain ⟨outs, hprints, hspells, hall, hcompact⟩ :=
      ih (fun text ht => htexts text (by simp [ht])) hrest
    rw [mapM_eq_ok_iff] at hprints
    refine ⟨out :: outs, (mapM_eq_ok_iff _ _ _).mpr (.cons hout.prints hprints), ?_, ?_, ?_⟩
    · rw [List.zipIdx_cons]
      exact .cons hout.spells hspells
    · simpa only [List.forall_mem_cons] using ⟨⟨hout.trimmed, hout.ne_nil⟩, hall⟩
    · rw [List.map_cons, List.map_cons, hout.compact_eq, hcompact]

end Operands

def spaced : List (List Char) → List (List Char)
  | [] => [[]]
  | out :: outs => out :: outs.map (' ' :: ·)

private theorem intercalate_spaced (outs : List (List Char)) :
    [','].intercalate (spaced outs) = [',', ' '].intercalate outs := by
  induction outs with
  | nil => rfl
  | cons out outs ih =>
    cases outs with
    | nil => rfl
    | cons next rest =>
      rw [List.intercalate_cons_cons, ← ih]
      cases rest <;> simp [spaced]

private theorem map_trim_spaced {outs : List (List Char)} (houts : ∀ out ∈ outs, Trimmed out)
    (hne : outs ≠ []) : (spaced outs).map trim = outs := by
  have hblank : ∀ out, trim (' ' :: out) = trim out := fun out => rfl
  cases outs with
  | nil => exact (hne rfl).elim
  | cons out outs =>
    simp only [spaced, List.map_cons, List.map_map, Function.comp_def, hblank]
    rw [(houts out (by simp)).trim_eq,
      List.map_congr_left fun out hout => (houts out (by simp [hout])).trim_eq, List.map_id']

private theorem map_compact_spaced {outs : List (List Char)} (hne : outs ≠ []) :
    (spaced outs).map compact = outs.map compact := by
  have hblank : ∀ out, compact (' ' :: out) = compact out := fun out => rfl
  cases outs with
  | nil => exact (hne rfl).elim
  | cons out outs => simp only [spaced, List.map_cons, List.map_map, Function.comp_def, hblank]

private theorem trimmed_of_mem_operandTexts {args text : List Char} (h : text ∈ operandTexts args) :
    Trimmed text := by
  simp only [operandTexts] at h
  split at h
  · cases h
  · obtain ⟨piece, _, rfl⟩ := List.mem_map.mp h
    exact trimmed_trim piece

private theorem map_compact_commaPieces (args : List Char) :
    (commaPieces none 0 args).map compact = (spaced (operandTexts args)).map compact := by
  have htrim : ((commaPieces none 0 args).map trim).map compact =
      (commaPieces none 0 args).map compact := by
    rw [List.map_map]
    exact List.map_congr_left fun piece _ => compact_trim piece
  rw [← htrim]
  simp only [operandTexts]
  split
  · next hempty => rw [hempty]; rfl
  · refine (map_compact_spaced fun hnil => ?_).symm
    have hpieces := separated_commaPieces (none, 0) args
    rw [List.map_eq_nil_iff.mp hnil] at hpieces
    exact hpieces

/-- Operand texts that differ in blanks only are found again after they have been joined. -/
theorem operandTexts_intercalate {args : List Char} {outs : List (List Char)}
    (houts : ∀ out ∈ outs, Trimmed out ∧ out ≠ [])
    (hcompact : outs.map compact = (operandTexts args).map compact) :
    operandTexts ([',', ' '].intercalate outs) = outs ∧
      compact ([',', ' '].intercalate outs) = compact args := by
  have hpieces : (commaPieces none 0 args).map compact = (spaced outs).map compact := by
    rw [map_compact_commaPieces]
    cases outs with
    | nil => rw [List.map_eq_nil_iff.mp hcompact.symm]
    | cons out outs =>
      have hne : operandTexts args ≠ [] := by
        intro hnil
        rw [hnil] at hcompact
        cases hcompact
      rw [map_compact_spaced hne, map_compact_spaced (by simp), hcompact]
  have hseparated : Separated (none, 0) (spaced outs) :=
    (separated_commaPieces (none, 0) args).congr (fun _ hq => by cases hq) hpieces
  rw [← intercalate_spaced]
  constructor
  · have hjoined : commaPieces none 0 ([','].intercalate (spaced outs)) = spaced outs :=
      commaPieces_intercalate hseparated
    simp only [operandTexts, hjoined]
    cases outs with
    | nil => rfl
    | cons out outs =>
      rw [map_trim_spaced (fun out hout => (houts out hout).1) (by simp), if_neg]
      intro hnil
      exact (houts out (by simp)).2 (List.cons.inj hnil).1
  · rw [compact_intercalate, ← hpieces, ← compact_intercalate, intercalate_commaPieces]

private theorem trimmed_intercalate {outs : List (List Char)}
    (houts : ∀ out ∈ outs, Trimmed out ∧ out ≠ []) :
    Trimmed ([',', ' '].intercalate outs) ∧ (outs ≠ [] → [',', ' '].intercalate outs ≠ []) := by
  induction outs with
  | nil => exact ⟨trimmed_of_forall (by simp), fun h => (h rfl).elim⟩
  | cons out outs ih =>
    obtain ⟨hout, hne⟩ := houts out (by simp)
    cases outs with
    | nil => simpa using ⟨hout, hne⟩
    | cons next outs =>
      obtain ⟨hrest, hrest'⟩ := ih fun out hout => houts out (by simp [hout])
      rw [List.intercalate_cons_cons, List.append_assoc]
      exact ⟨hout.append hrest hne (hrest' (by simp)) _, by simp⟩

private theorem readLineLabel_eq_ok_iff (marked : Option (List Char)) (label : Option String) :
    Reader.readLineLabel marked = .ok label ↔ (marked = none ∧ label = none) ∨
      ∃ name n, isIdentifier name = true ∧ marked = some (name ++ List.replicate n ':') ∧
        label = some (String.ofList name) := by
  cases marked with
  | none =>
    rw [Reader.readLineLabel]
    simpa using eq_comm
  | some marked =>
    rw [Reader.readLineLabel]
    constructor
    · intro h
      split at h
      · next hname =>
        have hall : ∀ c ∈ marked.rtakeWhile (· == ':'), c = ':' := by
          intro c hc
          have hcolon := List.mem_rtakeWhile_imp hc
          exact beq_iff_eq.mp hcolon
        refine .inr ⟨_, (marked.rtakeWhile (· == ':')).length, hname, ?_, (Except.ok.inj h).symm⟩
        rw [← List.eq_replicate_of_mem hall]
        exact congrArg some List.rdropWhile_append_rtakeWhile.symm
      · cases h
    · rintro (⟨h, _⟩ | ⟨name, n, hname, h, rfl⟩)
      · cases h
      · obtain rfl := Option.some.inj h
        have hdrop : dropEndWhile (· == ':') (name ++ List.replicate n ':') = name :=
          dropEndWhile_append
            (fun c hc => beq_false_of_ne (ne_of_mem_identifier hname hc (by decide))) (by simp)
        simp only [hdrop, hname, if_true]

def operationText (word args : List Char) : List Char :=
  if args = [] then word else word ++ ' ' :: args

section OperationText
variable {word args : List Char} (hword : ∀ c ∈ word, isBlank c = false) (hargs : Trimmed args)

include hword hargs in
private theorem splitWord_operationText : splitWord (operationText word args) = (word, args) := by
  unfold operationText
  split
  · next hnil => rw [splitWord, cut_eq_none hword, hnil]
  · rw [splitWord, cut_append (c := ' ') hword (by decide)]
    simp only [hargs.trim_eq]

include hword in
private theorem splitLabel_operationText (hcolon : word.getLast? ≠ some ':') :
    splitLabel (operationText word args) = (none, operationText word args) := by
  unfold operationText
  split
  · rw [splitLabel, cut_eq_none hword]
    exact if_neg hcolon
  · rw [splitLabel, cut_append (c := ' ') hword (by decide)]
    exact if_neg hcolon

include hword hargs in
private theorem trimmed_operationText (hne : word ≠ []) : Trimmed (operationText word args) := by
  unfold operationText
  split
  · exact trimmed_of_forall hword
  · next hargs' => exact (trimmed_of_forall hword).append hargs hne hargs' [' ']

end OperationText

private theorem splitLabel_labelled {name rest : List Char} (hname : isIdentifier name = true)
    (hrest : Trimmed rest) :
    splitLabel (name ++ ':' :: ' ' :: rest) = (some (name ++ [':']), rest) := by
  have hblank : ∀ c ∈ name ++ [':'], isBlank c = false := by
    intro c hc
    rcases List.mem_append.mp hc with hc | hc
    · exact isBlank_of_isIdentifierRest (isIdentifierRest_of_mem hname hc)
    · obtain rfl := List.mem_singleton.mp hc
      decide
  have hcut := cut_append (c := ' ') hblank (by decide) rest
  rw [List.append_assoc] at hcut
  unfold splitLabel
  rw [show name ++ ':' :: ' ' :: rest = name ++ ([':'] ++ ' ' :: rest) from rfl, hcut]
  simp [hrest.trim_eq]

private theorem exists_append_splitLabel (line : List Char) :
    ∃ before after, line = before ++ ((splitLabel line).2 ++ after) ∧
      ∀ c ∈ before, isBlank c = true ∨ ∃ marked, (splitLabel line).1 = some marked ∧ c ∈ marked := by
  unfold splitLabel
  split
  · next first rest hcut =>
    split
    · obtain ⟨blanks, after, hline, hblanks⟩ := exists_append_of_cut hcut
      refine ⟨first ++ blanks, after, hline, fun c hc => ?_⟩
      rcases List.mem_append.mp hc with hc | hc
      · exact .inr ⟨first, rfl, hc⟩
      · exact .inl (hblanks c hc)
    · exact ⟨[], [], by simp, by simp⟩
  · split
    · exact ⟨line, [], by simp, fun c hc => .inr ⟨line, rfl, hc⟩⟩
    · exact ⟨[], [], by simp, by simp⟩

private theorem exists_append_splitWord (cs : List Char) :
    ∃ before after, cs = before ++ ((splitWord cs).2 ++ after) ∧
      ∀ c ∈ before, isBlank c = true ∨ c ∈ (splitWord cs).1 := by
  unfold splitWord
  split
  · next word rest hcut =>
    obtain ⟨blanks, after, hcs, hblanks⟩ := exists_append_of_cut hcut
    refine ⟨word ++ blanks, after, hcs, fun c hc => ?_⟩
    exact (List.mem_append.mp hc).symm.imp (hblanks c) id
  · exact ⟨cs, [], by simp, fun c hc => .inr hc⟩

private theorem not_mem_scanSigns_of_isIdentifierRest {c : Char} (hc : isIdentifierRest c = true) :
    c ∉ scanSigns := by
  intro hmem
  have hsigns : scanSigns.any isIdentifierRest = false := by decide
  exact List.any_eq_false.mp hsigns c hmem hc

/-- The scan of a line does not see what stands before the operands. -/
theorem along_argumentsText {allowed : ScanState → Char → Prop} {s : ScanState} (hs : s.1 = none)
    {line : List Char} {label : Option String}
    (hlabel : Reader.readLineLabel (splitLabel line).1 = .ok label)
    (hword : ∀ c ∈ Reader.operationWord line, c ∉ scanSigns) (h : Along allowed s line) :
    Along allowed s (argumentsText line) := by
  obtain ⟨before, after, hline, hbefore⟩ := exists_append_splitLabel line
  obtain ⟨before', after', hrest, hbefore'⟩ := exists_append_splitWord (splitLabel line).2
  rw [hline] at h
  have hmiddle : Along allowed s (splitLabel line).2 := by
    refine along_middle hs (fun c hc => ?_) h
    rcases hbefore c hc with hblank | ⟨marked, hmarked, hc⟩
    · exact not_mem_scanSigns_of_isBlank hblank
    · rw [hmarked, readLineLabel_eq_ok_iff] at hlabel
      obtain ⟨h, _⟩ | ⟨name, n, hname, h, _⟩ := hlabel
      · cases h
      · obtain rfl := Option.some.inj h
        rcases List.mem_append.mp hc with hc | hc
        · exact not_mem_scanSigns_of_isIdentifierRest (isIdentifierRest_of_mem hname hc)
        · rw [List.eq_of_mem_replicate hc]
          decide
  rw [hrest] at hmiddle
  refine along_middle hs (fun c hc => ?_) hmiddle
  exact (hbefore' c hc).elim not_mem_scanSigns_of_isBlank (hword c)

private theorem mem_readable_of_ofText? {word : String} {opcode : Opcode}
    (h : Opcode.ofText? word = some opcode) :
    opcode ∈ Opcode.readable ∧ (word = "" ∨ word = opcode.text) := by
  unfold Opcode.ofText? at h
  split at h
  · next hempty =>
    obtain rfl := Option.some.inj h
    exact ⟨by decide, .inl hempty⟩
  · have htext := List.find?_some h
    exact ⟨List.mem_of_find?_eq_some h, .inr (of_decide_eq_true htext).symm⟩

private theorem ofText?_text :
    ∀ opcode ∈ Opcode.readable, Opcode.ofText? opcode.text = some opcode := by
  decide +kernel

private theorem plain_text (opcode : Opcode) (h : opcode ∈ Opcode.readable) :
    ∀ c ∈ opcode.text.toList,
    isBlank c = false ∧ c ∉ scanSigns ∧ c ≠ '#' := by
  have hall : ∀ opcode ∈ Opcode.readable, (opcode.text.toList.all fun c =>
      !isBlank c && (!scanSigns.contains c && c != '#')) = true := by
    decide +kernel
  intro c hc
  simpa using List.all_eq_true.mp (hall opcode h) c hc

private theorem text_ends : ∀ opcode ∈ Opcode.readable, opcode.text.toList ≠ [] ∧
    opcode.text.toList.head? ≠ some '.' ∧ opcode.text.toList.getLast? ≠ some ':' := by
  decide +kernel

def labelText (label : Option String) : List Char :=
  (label.map fun l => l.toList ++ [':', ' ']).getD []

private theorem along_noComment_of_not_mem {s : ScanState} (hs : s.1 = none) {cs : List Char}
    (hcs : ∀ c ∈ cs, c ∉ scanSigns ∧ c ≠ '#') : Along NoComment s cs := by
  induction cs with
  | nil => trivial
  | cons c cs ih =>
    obtain ⟨hsign, hhash⟩ := hcs c (by simp)
    refine ⟨fun h => hhash h.2, ?_⟩
    rw [scan_of_not_mem hs hsign]
    exact ih fun d hd => hcs d (by simp [hd])

section Printed
variable {label : Option String} {opcode : Opcode} {args : List Char}
  (hlabel : ∀ l ∈ label, isIdentifier l.toList = true) (hopcode : opcode ∈ Opcode.readable)
  (hargs : Trimmed args)

include hlabel in
private theorem plain_labelText : ∀ c ∈ labelText label, c ∉ scanSigns ∧ c ≠ '#' := by
  intro c hc
  cases label with
  | none => cases hc
  | some l =>
    rcases List.mem_append.mp hc with hc | hc
    · exact ⟨not_mem_scanSigns_of_isIdentifierRest (isIdentifierRest_of_mem (hlabel l rfl) hc),
        ne_of_mem_identifier (hlabel l rfl) hc (by decide)⟩
    · obtain rfl | rfl : c = ':' ∨ c = ' ' := by simpa using hc
      · decide
      · decide

include hopcode in
private theorem along_operationText (hclear : Along NoComment (none, 0) args) :
    Along NoComment (none, 0) (operationText opcode.text.toList args) := by
  have hword : ∀ c ∈ opcode.text.toList, c ∉ scanSigns ∧ c ≠ '#' :=
    fun c hc => (plain_text opcode hopcode c hc).2
  have halong : Along NoComment (none, 0) opcode.text.toList := along_noComment_of_not_mem rfl hword
  unfold operationText
  split
  · exact halong
  · rw [along_append, foldl_scan_of_not_mem rfl fun c hc => (hword c hc).1]
    exact ⟨halong, by simp [NoComment], hclear⟩

include hlabel hopcode hargs in
private theorem splitLabel_printed : ∃ marked,
    splitLabel (labelText label ++ operationText opcode.text.toList args) =
      (marked, operationText opcode.text.toList args) ∧
    Reader.readLineLabel marked = .ok label := by
  have hword := fun c hc => (plain_text opcode hopcode c hc).1
  obtain ⟨hne, _, hcolon⟩ := text_ends opcode hopcode
  cases label with
  | none =>
    exact ⟨none, splitLabel_operationText hword hcolon, rfl⟩
  | some l =>
    have hname := hlabel l rfl
    have hrest := trimmed_operationText hword hargs hne
    refine ⟨some (l.toList ++ [':']), ?_, ?_⟩
    · simpa [labelText] using splitLabel_labelled hname hrest
    · refine (readLineLabel_eq_ok_iff _ _).mpr (.inr ⟨l.toList, 1, hname, rfl, ?_⟩)
      rw [String.ofList_toList]

private theorem head?_operationText {word : List Char} (hword : word ≠ []) :
    (operationText word args).head? = word.head? := by
  unfold operationText
  split
  · rfl
  · exact List.head?_append_of_ne_nil _ hword

include hlabel hopcode hargs in
private theorem ofText_printed (hclear : Along NoComment (none, 0) args) :
    Line.ofText (labelText label ++ operationText opcode.text.toList args) =
      .instruction (labelText label ++ operationText opcode.text.toList args) := by
  obtain ⟨hne, hdot, _⟩ := text_ends opcode hopcode
  have hbody := trimmed_operationText (fun c hc => (plain_text opcode hopcode c hc).1) hargs hne
  have hhead : (operationText opcode.text.toList args).head? = _ := head?_operationText hne
  have hbody' : operationText opcode.text.toList args ≠ [] := by
    intro hnil
    rw [hnil] at hhead
    exact hne (List.head?_eq_none_iff.mp hhead.symm)
  have hlabel' := plain_labelText hlabel
  have halong : Along NoComment (none, 0)
      (labelText label ++ operationText opcode.text.toList args) := by
    rw [along_append, foldl_scan_of_not_mem rfl fun c hc => (hlabel' c hc).1]
    exact ⟨along_noComment_of_not_mem rfl hlabel', along_operationText hopcode hclear⟩
  have hkept : beforeComment none (labelText label ++ operationText opcode.text.toList args) = _ :=
    beforeComment_eq_self halong
  rw [Line.ofText_eq_instruction_iff, hkept]
  cases label with
  | none => exact ⟨hbody.trim_eq, hbody', fun h => hdot (hhead ▸ h)⟩
  | some l =>
    have hname := hlabel l rfl
    have hname' := ne_nil_of_isIdentifier hname
    have htrimmed := (trimmed_of_isIdentifier hname).append hbody hname' hbody' [':', ' ']
    simp only [labelText, Option.map_some, Option.getD_some, List.append_assoc]
    refine ⟨htrimmed.trim_eq, by simp, ?_⟩
    rw [List.head?_append_of_ne_nil _ hname']
    intro hhead
    exact ne_of_mem_identifier hname (List.mem_of_mem_head? hhead) (by decide) rfl

end Printed

private theorem text_eq_ok {t : SymbolTable} {i : Instruction} {outs : List (List Char)}
    (houts : ∀ out ∈ outs, Trimmed out ∧ out ≠ [])
    (hprints : i.operands.mapM (·.text t) = .ok (outs.map String.ofList)) :
    i.text t = .ok (String.ofList (labelText i.label ++
      operationText i.opcode.text.toList ([',', ' '].intercalate outs))) := by
  rw [Instruction.text, hprints]
  refine congrArg Except.ok (String.toList_inj.mp ?_)
  have hlabel : ((i.label.map fun l => l ++ ": ").getD "").toList = labelText i.label := by
    cases i.label <;> simp [labelText]
  simp only [String.toList_append, hlabel, String.toList_ofList, List.append_assoc]
  congr 1
  cases outs with
  | nil => simp [operationText]
  | cons out outs =>
    have hne := (trimmed_intercalate houts).2 (by simp)
    have htexts : (String.toList ∘ String.ofList) = id := funext fun cs => String.toList_ofList
    simp [operationText, hne, htexts]

private theorem SpellsInstruction.exists_text {binds : String → Variable → Prop} {t : SymbolTable}
    (hnames : ∀ name v, binds name v → t.name v = .ok name) {line : List Char} {i : Instruction}
    (h : SpellsInstruction binds line i) (hclear : Along NoComment (none, 0) line) :
    ∃ text, i.text t = .ok text ∧ Line.ofText text.toList = .instruction text.toList ∧
      SpellsInstruction binds text.toList i := by
  obtain ⟨hreadable, hword⟩ := mem_readable_of_ofText? h.opcode
  obtain ⟨outs, hprints, hspells, houts, hcompact⟩ := exists_reprints hnames
    (fun text ht => trimmed_of_mem_operandTexts ht) h.operands
  obtain ⟨htexts, hargs⟩ := operandTexts_intercalate houts hcompact
  have htrimmed := (trimmed_intercalate houts).1
  have hlabel : ∀ l ∈ i.label, isIdentifier l.toList = true := by
    intro l hl
    obtain ⟨_, hnone⟩ | ⟨name, n, hname, _, hsome⟩ := (readLineLabel_eq_ok_iff _ _).mp h.label
    · rw [hnone] at hl
      cases hl
    · rw [hsome] at hl
      obtain rfl := Option.some.inj hl
      rwa [String.toList_ofList]
  have hplain : ∀ c ∈ Reader.operationWord line, c ∉ scanSigns := by
    intro c hc
    have hc' : c ∈ (String.ofList (Reader.operationWord line)).toList := by
      rwa [String.toList_ofList]
    rcases hword with hempty | htext
    · rw [hempty] at hc'
      cases hc'
    · rw [htext] at hc'
      exact (plain_text _ hreadable c hc').2.1
  -- the operands of the line hold no comment sign outside quotes, so the printed ones do not either
  have hclear' : Along NoComment (none, 0) ([',', ' '].intercalate outs) := by
    rw [← along_compact noComment_of_isBlank (fun _ hq => by cases hq), hargs,
      along_compact noComment_of_isBlank (fun _ hq => by cases hq)]
    exact along_argumentsText rfl h.label hplain hclear
  refine ⟨_, text_eq_ok houts hprints, ?_, ?_⟩
  · rw [String.toList_ofList]
    exact ofText_printed hlabel hreadable htrimmed hclear'
  · obtain ⟨marked, hmarked, hread⟩ := splitLabel_printed hlabel hreadable htrimmed
    have hsplit := splitWord_operationText
      (fun c hc => (plain_text i.opcode hreadable c hc).1) htrimmed
    rw [String.toList_ofList]
    refine ⟨?_, ?_, ?_⟩
    · rw [hmarked, hread]
    · rw [Reader.operationWord, hmarked, hsplit, String.ofList_toList]
      exact ofText?_text i.opcode hreadable
    · rw [argumentsText, hmarked, hsplit, htexts]
      exact hspells

/-- An instruction that was read from a line, in whatever state, is read again from its own text. -/
theorem readLine_text {r : Reader} {f : OpenFunction} (hopened : r.opened = some f)
    {line : List Char} {i : Instruction}
    (h : r.readLine line = .ok { r with opened := some { f with code := f.code ++ [i] } }) :
    ∃ text, i.text r.program.symbols = .ok text ∧
      r.readLine text.toList = .ok { r with opened := some { f with code := f.code ++ [i] } } := by
  have hcode : ({ r with opened := some { f with code := f.code ++ [i] } } : Reader).code =
      r.code ++ [i] := by
    simp [Reader.code, hopened]
  obtain ⟨line', hline, hread⟩ := (Reader.step_of_readLine h).exists_instruction hcode
  have hclear : Along NoComment (none, 0) line' := by
    obtain ⟨before, after, hall, hbefore, _⟩ := exists_append_trim (beforeComment none line)
    obtain ⟨rfl, _⟩ := (Line.ofText_eq_instruction_iff line line').mp hline
    have halong : Along NoComment (none, 0) (beforeComment none line) :=
      along_beforeComment (none, 0) line
    rw [hall, List.append_assoc] at halong
    exact along_middle rfl (fun c hc => not_mem_scanSigns_of_isBlank (hbefore c hc)) halong
  have hnames : ∀ name v, r.names name = .ok (some v) → r.program.symbols.name v = .ok name :=
    fun name v hlookup => SymbolTable.name_of_lookup hlookup
  rw [readInstruction_eq_ok_iff] at hread
  obtain ⟨text, htext, hline', hspells⟩ := hread.exists_text hnames hclear
  refine ⟨text, htext, ?_⟩
  rw [Reader.readLine_of_ofText hline' r, (readInstruction_eq_ok_iff _ _ _).mpr hspells]
  simp [bind, Except.bind, Reader.append, hopened]

/-- A label with two colons, an index with odd blanks, and literals that hold a comma, a comment sign
and a quote, in a scope that shadows a variable. -/
theorem readLine_text_quoted :
    let table : SymbolTable :=
      .ofDeclarations [⟨"a", .int, ⟨1⟩⟩, ⟨"a", .int, ⟨2⟩⟩] [none, some ⟨0⟩, some ⟨1⟩]
    let r : Reader := ⟨⟨table, []⟩, ⟨0⟩, some ⟨"f", ⟨1⟩, [⟨2⟩], []⟩⟩
    let f : OpenFunction := ⟨"f", ⟨1⟩, [⟨2⟩], []⟩
    let line := "L::  + a[ a[1 ] ],\"x, # y\" , 'it's'".toList
    let i : Instruction := ⟨some "L", .binary .add,
      [.element ⟨1⟩ (.element ⟨1⟩ (.literal "1")), .literal "\"x, # y\"", .literal "'it's'"]⟩
    r.opened = some f ∧
    r.readLine line = .ok { r with opened := some { f with code := f.code ++ [i] } } ∧
    ∃ text, i.text r.program.symbols = .ok text ∧
      r.readLine text.toList = .ok { r with opened := some { f with code := f.code ++ [i] } } := by
  intro table r f line i
  have hopened : r.opened = some f := rfl
  have hline : Line.ofText line = .instruction line := by decide +kernel
  have hread : Reader.readInstruction r.names line = .ok i := by decide +kernel
  have haccepted : r.readLine line =
      .ok { r with opened := some { f with code := f.code ++ [i] } } := by
    rw [Reader.readLine_of_ofText hline, hread]
    rfl
  exact ⟨hopened, haccepted, readLine_text hopened haccepted⟩

end RegisterColoring.Source
