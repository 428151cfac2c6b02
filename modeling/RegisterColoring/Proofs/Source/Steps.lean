import RegisterColoring.Proofs.Source.Spelling
import RegisterColoring.Proofs.Symbols
/-!
# What a line does to the reader

A line is blank, a directive or an instruction. Of the reader it can change the symbol table, the
open scopes and the code that has been read, and in few ways.
-/
namespace RegisterColoring.Source
open Text

/-- What stands on a line, without its comment and outer blanks. -/
inductive Line
  | blank
  | directive (d : Directive)
  | malformed (text : List Char)
  | instruction (text : List Char)
deriving DecidableEq

namespace Line

def ofText (line : List Char) : Line :=
  match trim (beforeComment none line) with
  | [] => .blank
  | '.' :: rest =>
    match Directive.ofWords? ((words ('.' :: rest)).map String.ofList) with
    | some d => .directive d
    | none => .malformed ('.' :: rest)
  | c :: rest => .instruction (c :: rest)

theorem ofText_eq_instruction_iff (line text : List Char) : ofText line = .instruction text ↔
    trim (beforeComment none line) = text ∧ text ≠ [] ∧ text.head? ≠ some '.' := by
  unfold ofText
  split
  · next htext =>
    rw [htext]
    constructor
    · intro h
      cases h
    · rintro ⟨rfl, hne, _⟩
      exact (hne rfl).elim
  · next rest htext =>
    rw [htext]
    constructor
    · intro h
      split at h <;> cases h
    · rintro ⟨rfl, _, hdot⟩
      exact (hdot rfl).elim
  · next c rest hc htext =>
    rw [htext]
    constructor
    · intro h
      cases h
      exact ⟨rfl, by simp, by simpa using hc⟩
    · intro h
      rw [h.1]

def opens : Line → Bool
  | .directive (.openFunction _) => true
  | .directive .openScope => true
  | _ => false

def closes : Line → Bool
  | .directive .closeFunction => true
  | .directive .closeScope => true
  | _ => false

def isDeclaration : Line → Bool
  | .directive (.declare _ _) => true
  | _ => false

def isInstruction : Line → Bool
  | .instruction _ => true
  | _ => false

theorem of_opens {l : Line} (h : l.opens = true) :
    l.closes = false ∧ l.isDeclaration = false ∧ l.isInstruction = false := by
  unfold opens at h
  split at h <;> first | exact ⟨rfl, rfl, rfl⟩ | cases h

theorem of_closes {l : Line} (h : l.closes = true) :
    l.opens = false ∧ l.isDeclaration = false ∧ l.isInstruction = false := by
  unfold closes at h
  split at h <;> first | exact ⟨rfl, rfl, rfl⟩ | cases h

end Line

namespace Reader

/-- The open scopes, the innermost first and the global one last. -/
def scopes (r : Reader) : List Scope :=
  match r.opened with
  | none => [r.globalScope]
  | some f => f.nested ++ [f.body, r.globalScope]

def code (r : Reader) : List Instruction :=
  r.program.functions.flatMap Function.code ++ (r.opened.map OpenFunction.code).getD []

theorem scopes_eq (r : Reader) : ∃ rest, r.scopes = r.scope :: rest := by
  cases hopened : r.opened with
  | none => exact ⟨[], by simp [scopes, scope, hopened]⟩
  | some f =>
    cases hnested : f.nested with
    | nil => exact ⟨[r.globalScope], by simp [scopes, scope, hopened, hnested]⟩
    | cons s nested =>
      exact ⟨nested ++ [f.body, r.globalScope], by simp [scopes, scope, hopened, hnested]⟩

/-- How an accepted line changes what the reader holds. -/
inductive Step (r r' : Reader) : Line → Prop
  | blank (h : r' = r) : Step r r' .blank
  | opens {l : Line} (hl : l.opens = true)
    (hsymbols : r'.program.symbols = (r.program.symbols.newScope (some r.scope)).2)
    (hscopes : r'.scopes = (r.program.symbols.newScope (some r.scope)).1 :: r.scopes)
    (hcode : r'.code = r.code) : Step r r' l
  | closes {l : Line} (hl : l.closes = true) (hsymbols : r'.program.symbols = r.program.symbols)
    (hscopes : r.scopes = r.scope :: r'.scopes) (hcode : r'.code = r.code) : Step r r' l
  | declares {name text : String} {type : ValueType} {v : Variable}
    (htype : ValueType.ofText? text = some type)
    (hdeclare : r.program.symbols.declare r.scope name type = .ok (v, r'.program.symbols))
    (hscopes : r'.scopes = r.scopes) (hcode : r'.code = r.code) :
    Step r r' (.directive (.declare name text))
  | instruction {text : List Char} {i : Instruction} (hi : readInstruction r.names text = .ok i)
    (hsymbols : r'.program.symbols = r.program.symbols) (hscopes : r'.scopes = r.scopes)
    (hcode : r'.code = r.code ++ [i]) : Step r r' (.instruction text)

theorem Step.exists_instruction {r r' : Reader} {l : Line} {i : Instruction} (h : r.Step r' l)
    (hcode : r'.code = r.code ++ [i]) :
    ∃ text, l = .instruction text ∧ readInstruction r.names text = .ok i := by
  have hne : ¬ r'.code = r.code := by simp [hcode]
  cases h with
  | blank hr => exact (hne (by rw [hr])).elim
  | opens _ _ _ hcode' => exact (hne hcode').elim
  | closes _ _ _ hcode' => exact (hne hcode').elim
  | declares _ _ _ hcode' => exact (hne hcode').elim
  | @instruction text j hj _ _ hcode' =>
    obtain rfl : j = i := by simpa [hcode] using hcode'.symm
    exact ⟨text, rfl, hj⟩

/-- What an accepted line makes of the reader. -/
inductive Turn (r : Reader) : Line → Reader → Prop
  | blank : Turn r .blank r
  | openFunction (name : String) (hopened : r.opened = none) :
    Turn r (.directive (.openFunction name))
    { r.withSymbols (r.program.symbols.newScope (some r.globalScope)).2 with
      opened := some ⟨name, (r.program.symbols.newScope (some r.globalScope)).1, [], []⟩ }
  | closeFunction {f : OpenFunction} (hopened : r.opened = some f) (hnested : f.nested = []) :
    Turn r (.directive .closeFunction)
      { r with
        program := { r.program with
          functions := r.program.functions ++ [⟨f.name, f.body, f.code⟩] }
        opened := none }
  | declare {name text : String} {type : ValueType} {v : Variable} {symbols : SymbolTable}
    (htype : ValueType.ofText? text = some type)
    (hdeclare : r.program.symbols.declare r.scope name type = .ok (v, symbols)) :
    Turn r (.directive (.declare name text)) (r.withSymbols symbols)
  | openScope {f : OpenFunction} (hopened : r.opened = some f) : Turn r (.directive .openScope)
    { r.withSymbols (r.program.symbols.newScope (some r.scope)).2 with
      opened := some { f with
        nested := (r.program.symbols.newScope (some r.scope)).1 :: f.nested } }
  | closeScope {f : OpenFunction} {s : Scope} {nested : List Scope} (hopened : r.opened = some f)
    (hnested : f.nested = s :: nested) :
    Turn r (.directive .closeScope) { r with opened := some { f with nested } }
  | instruction {text : List Char} {i : Instruction} {f : OpenFunction}
    (hi : readInstruction r.names text = .ok i) (hopened : r.opened = some f) :
    Turn r (.instruction text) { r with opened := some { f with code := f.code ++ [i] } }

theorem direct_eq_ok_iff (r : Reader) (d : Directive) (r' : Reader) :
    r.direct d = .ok r' ↔ r.Turn (.directive d) r' := by
  constructor
  · intro h
    cases d with
    | openFunction name =>
      rw [direct] at h
      split at h
      · cases h
      · next hopened =>
        obtain rfl := Except.ok.inj h
        exact .openFunction name hopened
    | closeFunction =>
      rw [direct] at h
      split at h
      · cases h
      · next f hopened =>
        split at h
        · next hnested =>
          obtain rfl := Except.ok.inj h
          exact .closeFunction hopened (List.isEmpty_iff.mp hnested)
        · cases h
    | declare name text =>
      rw [direct] at h
      split at h
      · cases h
      · next type htype =>
        split at h
        · cases h
        · next v symbols hdeclare =>
          obtain rfl := Except.ok.inj h
          exact .declare htype hdeclare
    | openScope =>
      rw [direct] at h
      split at h
      · cases h
      · next f hopened =>
        obtain rfl := Except.ok.inj h
        exact .openScope hopened
    | closeScope =>
      rw [direct] at h
      split at h
      · cases h
      · next f hopened =>
        split at h
        · cases h
        · next s nested hnested =>
          obtain rfl := Except.ok.inj h
          exact .closeScope hopened hnested
  · intro h
    cases h with
    | openFunction name hopened => simp [direct, hopened]
    | closeFunction hopened hnested => simp [direct, hopened, hnested]
    | declare htype hdeclare => simp [direct, htype, hdeclare]
    | openScope hopened => simp [direct, hopened]
    | closeScope hopened hnested => simp [direct, hopened, hnested]

def takeLine (r : Reader) : Line → Except Refusal Reader
  | .blank => .ok r
  | .directive d => r.direct d
  | .malformed text => .error (.malformedDirective (String.ofList text))
  | .instruction text => readInstruction r.names text >>= r.append (operationWord text)

theorem readLine_eq (r : Reader) (line : List Char) :
    r.readLine line = r.takeLine (Line.ofText line) := by
  unfold readLine Line.ofText
  generalize trim (beforeComment none line) = text
  cases text with
  | nil => rfl
  | cons c rest =>
    by_cases hc : c = '.'
    · subst hc
      cases hd : Directive.ofWords? ((words ('.' :: rest)).map String.ofList) <;>
        simp [hd, takeLine]
    · simp [takeLine]

theorem turn_of_takeLine {r r' : Reader} {l : Line} (h : r.takeLine l = .ok r') : r.Turn l r' := by
  cases l with
  | blank =>
    obtain rfl := Except.ok.inj h
    exact .blank
  | directive d => exact (direct_eq_ok_iff r d r').mp h
  | malformed text => cases h
  | instruction text =>
    obtain ⟨i, hi, happend⟩ := (bind_eq_ok_iff _ _ _).mp h
    rw [append] at happend
    split at happend
    · cases happend
    · next f hopened =>
      obtain rfl := Except.ok.inj happend
      exact .instruction hi hopened

theorem Turn.step {r r' : Reader} {l : Line} (h : r.Turn l r') : r.Step r' l := by
  cases h with
  | blank => exact .blank rfl
  | openFunction name hopened =>
    have hscope : r.scope = r.globalScope := by rw [scope, hopened]
    have hscopes : r.scopes = [r.globalScope] := by rw [scopes, hopened]
    refine .opens rfl ?_ ?_ ?_
    · rw [hscope]
      rfl
    · rw [hscope, hscopes]
      rfl
    · simp [code, withSymbols, hopened]
  | closeFunction hopened hnested =>
    refine .closes rfl rfl ?_ ?_
    · simp [scopes, scope, hopened, hnested]
    · simp [code, hopened]
  | declare htype hdeclare => exact .declares htype hdeclare rfl rfl
  | openScope hopened =>
    refine .opens rfl rfl ?_ ?_
    · simp only [scopes, hopened]
      rfl
    · simp [code, withSymbols, hopened]
  | closeScope hopened hnested =>
    refine .closes rfl rfl ?_ ?_
    · simp [scopes, scope, hopened, hnested]
    · simp [code, hopened]
  | instruction hi hopened =>
    refine .instruction hi rfl ?_ ?_
    · simp [scopes, hopened]
    · simp [code, hopened]

private theorem turn_of_readLine {r r' : Reader} {line : List Char} (h : r.readLine line = .ok r') :
    r.Turn (Line.ofText line) r' :=
  turn_of_takeLine (r.readLine_eq line ▸ h)

theorem step_of_readLine {r r' : Reader} {line : List Char} (h : r.readLine line = .ok r') :
    r.Step r' (Line.ofText line) :=
  (turn_of_readLine h).step

theorem readLine_of_ofText {line text : List Char} (h : Line.ofText line = .instruction text)
    (r : Reader) :
    r.readLine line = readInstruction r.names text >>= r.append (operationWord text) := by
  rw [readLine_eq, h]
  rfl

/-- What every line that is read keeps holds after the last of them. -/
theorem readLines_invariant {P : Nat → Reader → Prop} {text : List (List Char)}
    (hstep : ∀ (n : Nat) (l : Line) (r r' : Reader), (text.map Line.ofText)[n]? = some l →
      r.Turn l r' → P n r → P (n + 1) r')
    {before rest : List (List Char)} (htext : before ++ rest = text) {r r' : Reader}
    (hr : P before.length r) {number : Nat} (h : r.readLines number rest = .ok r') :
    P text.length r' := by
  induction rest generalizing before r number with
  | nil =>
    obtain rfl := Except.ok.inj h
    rw [← htext, List.append_nil]
    exact hr
  | cons line rest ih =>
    rw [readLines] at h
    split at h
    · cases h
    · next r₁ hline =>
      have hl : (text.map Line.ofText)[before.length]? = some (Line.ofText line) := by
        simp [← htext]
      have hnext := hstep before.length _ r r₁ hl (turn_of_readLine hline) hr
      have hlength : (before ++ [line]).length = before.length + 1 := by simp
      refine @ih (before ++ [line]) ?_ r₁ ?_ _ h
      · rw [← htext, List.append_assoc]
        rfl
      · rw [hlength]
        exact hnext

/-- The reader is in state `r` after the first `n` lines of the source. -/
inductive Reaches (src : List Line) : Nat → Reader → Prop
  | start : Reaches src 0 .start
  | line {n : Nat} {r r' : Reader} {l : Line} (h : Reaches src n r) (hl : src[n]? = some l)
    (hstep : r.Step r' l) : Reaches src (n + 1) r'

namespace Step
variable {r r' : Reader} {l : Line}

theorem table_extends (h : r.Step r' l) : r'.program.symbols.Extends r.program.symbols := by
  cases h with
  | blank hr => rw [hr]; exact .refl _
  | opens _ hsymbols _ _ => rw [hsymbols]; exact SymbolTable.newScope_extends _ _
  | closes _ hsymbols _ _ => rw [hsymbols]; exact .refl _
  | declares _ hdeclare _ _ => exact SymbolTable.declare_extends hdeclare
  | instruction _ hsymbols _ _ => rw [hsymbols]; exact .refl _

private theorem code_prefix (h : r.Step r' l) : r.code <+: r'.code := by
  cases h with
  | blank hr => exact ⟨[], by rw [hr, List.append_nil]⟩
  | opens _ _ _ hcode => exact ⟨[], by rw [hcode, List.append_nil]⟩
  | closes _ _ _ hcode => exact ⟨[], by rw [hcode, List.append_nil]⟩
  | declares _ _ _ hcode => exact ⟨[], by rw [hcode, List.append_nil]⟩
  | @instruction _ i _ _ _ hcode => exact ⟨[i], hcode.symm⟩

end Step

def Sound (r : Reader) : Prop := r.program.symbols.Outward r.scopes

theorem sound_start : start.Sound := rfl

theorem Sound.step {r r' : Reader} {l : Line} (h : r.Sound) (hstep : r.Step r' l) : r'.Sound := by
  have hextends := hstep.table_extends
  obtain ⟨rest, hrest⟩ := r.scopes_eq
  obtain ⟨rest', hrest'⟩ := r'.scopes_eq
  unfold Sound at h ⊢
  cases hstep with
  | blank hr => exact hr ▸ h
  | opens _ hsymbols hscopes _ =>
    rw [hrest] at h
    rw [hsymbols, hscopes, hrest]
    exact h.newScope
  | closes _ hsymbols hscopes _ =>
    rw [hscopes, hrest', ← hsymbols] at h
    rw [hrest']
    exact h.2.2
  | declares _ hdeclare hscopes _ =>
    rw [hscopes]
    exact h.extends hextends
  | instruction _ hsymbols hscopes _ =>
    rw [hsymbols, hscopes]
    exact h

/-- A name stands for what the first open scope with a declaration of it declares. -/
theorem Sound.names {r : Reader} (h : r.Sound) (name : String) : r.names name =
    .ok (r.scopes.findSome? fun s => r.program.symbols.declaredIn? s name) := by
  obtain ⟨rest, hrest⟩ := r.scopes_eq
  rw [Sound, hrest] at h
  rw [hrest]
  exact h.lookup name

namespace Reaches
variable {src : List Line} {n : Nat} {r : Reader}

/-- Every earlier line was read in some state, and what it left is still there. -/
theorem exists_step (h : Reaches src n r) {m : Nat} (hm : m < n) : ∃ r₁ r₂ l,
    Reaches src m r₁ ∧ src[m]? = some l ∧ r₁.Step r₂ l ∧
      r.program.symbols.Extends r₂.program.symbols ∧ r₂.code <+: r.code := by
  induction h with
  | start => cases hm
  | @line n r r' l h hl hstep ih =>
    rcases Nat.lt_succ_iff_lt_or_eq.mp hm with hlt | rfl
    · obtain ⟨r₁, r₂, l', hreach, hl', hstep', hextends, hcode⟩ := ih hlt
      exact ⟨r₁, r₂, l', hreach, hl', hstep', hstep.table_extends.trans hextends,
        hcode.trans hstep.code_prefix⟩
    · exact ⟨r, r', l, h, hl, hstep, .refl _, List.prefix_refl _⟩

end Reaches

end Reader

def sourceLines (source : String) : List Line := (lines source.toList).map Line.ofText

/-- An accepted source leads the reader from its start to a state without an open function. -/
theorem exists_reaches {source : String} {p : Program} (h : readProgram source = .ok p) :
    ∃ r, Reader.Reaches (sourceLines source) (sourceLines source).length r ∧ r.program = p ∧
      r.opened = none := by
  simp only [readProgram] at h
  split at h
  · cases h
  · next r hlines =>
    split at h
    · cases h
    · next hopened =>
      have hreach := Reader.readLines_invariant (P := Reader.Reaches (sourceLines source))
        (fun n l r r' hl hturn hr => hr.line hl hturn.step) (List.nil_append _) .start hlines
      obtain rfl := Except.ok.inj h
      exact ⟨r, by simpa [sourceLines] using hreach, rfl, hopened⟩

end RegisterColoring.Source
