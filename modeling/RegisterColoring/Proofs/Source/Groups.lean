import RegisterColoring.Proofs.Source.Brackets
import RegisterColoring.Proofs.Source.Scoping
/-!
# The functions of a source

The brackets of an accepted source are functions one after the other. Each becomes one function of
the program, with the instructions on the lines in it, and each bracket becomes one scope.
A source of nothing but brackets is accepted exactly if they are of this form.
-/
namespace RegisterColoring.Source

def Line.bracket? : Line → Option Directive
  | .directive (.declare _ _) => none
  | .directive d => some d
  | _ => none

def Line.instruction? : Line → Option (List Char)
  | .instruction text => some text
  | _ => none

def brackets (src : List Line) : List Directive := src.filterMap Line.bracket?

/-- The instructions among the lines from line `first` on, each with its line. -/
def instructionLines (first : Nat) (body : List Line) : List (Nat × List Char) :=
  (body.zipIdx first).filterMap fun p => p.1.instruction?.map fun text => (p.2, text)

@[simp] theorem brackets_nil : brackets [] = [] := rfl

@[simp] theorem brackets_append (src rest : List Line) :
    brackets (src ++ rest) = brackets src ++ brackets rest :=
  List.filterMap_append

@[simp] theorem brackets_cons (l : Line) (src : List Line) :
    brackets (l :: src) = l.bracket?.toList ++ brackets src := by
  cases h : l.bracket? <;> simp [brackets, h]

private theorem instructionLines_append (first : Nat) (body rest : List Line) :
    instructionLines first (body ++ rest) =
      instructionLines first body ++ instructionLines (first + body.length) rest := by
  simp [instructionLines, List.zipIdx_append]

/-- A function of the source: its name and the lines in it, of which line `first` is the first. -/
structure Group where
  name : String
  first : Nat
  body : List Line

/-- The functions of a source in their order. Other lines hold no bracket and no instruction. -/
inductive Layout : List Line → List Group → Prop
  | nil : Layout [] []
  | other {before : List Line} {groups : List Group} {l : Line} (h : Layout before groups)
    (hbracket : l.bracket? = none) (hinstruction : l.instruction? = none) :
    Layout (before ++ [l]) groups
  | group {before body : List Line} {groups : List Group} (h : Layout before groups)
    (name : String) (hbody : Balanced (brackets body)) :
    Layout (before ++ .directive (.openFunction name) :: body ++ [.directive .closeFunction])
      (groups ++ [⟨name, before.length + 1, body⟩])

private theorem Layout.grouped {src : List Line} {groups : List Group} (h : Layout src groups) :
    Grouped (brackets src) := by
  induction h with
  | nil => exact grouped_nil
  | other _ hbracket _ ih => simpa [hbracket] using ih
  | @group before body groups h name hbody ih =>
    obtain ⟨words, hwords, hbefore⟩ := ih
    refine ⟨words ++ [(name, brackets body)], ?_, ?_⟩
    · simpa [or_imp, forall_and, hbody] using hwords
    · simp [hbefore, functionWord, Line.bracket?]

def Binds (src : List Line) (n : Nat) (name : String) (v : Variable) : Prop :=
  ∃ m, Resolves src n name m ∧ v = declaredBy src m

def Spelled (src : List Line) : List (Nat × List Char) → List Instruction → Prop :=
  List.Forall₂ fun line i => SpellsInstruction (Binds src line.1) line.2 i

/-- The function is the one that the lines of the group make. -/
structure Group.Makes (src : List Line) (g : Group) (f : Function) : Prop where
  name : f.name = g.name
  scope : f.scope = scopeOf src g.first
  code : Spelled src (instructionLines g.first g.body) f.code

/-- Where a reader with these functions stands after `n` lines: between two functions or in one. -/
inductive Stands (src : List Line) (n : Nat) (functions : List Function) :
    Option OpenFunction → Prop
  | outside {groups : List Group} (hlayout : Layout (src.take n) groups)
    (hfunctions : List.Forall₂ (Group.Makes src) groups functions) : Stands src n functions none
  | inside {before : List Line} (body : List Line) {groups : List Group} {f : OpenFunction}
    (htake : src.take n = before ++ .directive (.openFunction f.name) :: body)
    (hlayout : Layout before groups)
    (hfunctions : List.Forall₂ (Group.Makes src) groups functions)
    (hdepth : scopeWalk 0 (brackets body) = some f.nested.length)
    (hmakes : Group.Makes src ⟨f.name, before.length + 1, body⟩ ⟨f.name, f.body, f.code⟩) :
    Stands src n functions (some f)

section Step
variable {src : List Line} {n : Nat} {functions : List Function} {l : Line}
  (hl : src[n]? = some l)
include hl

private theorem take_succ : src.take (n + 1) = src.take n ++ [l] := between_succ hl (Nat.zero_le n)

private theorem Stands.extend {f : OpenFunction} (h : Stands src n functions (some f))
    {nested : List Scope} (hwalk : scopeWalk f.nested.length (brackets [l]) = some nested.length)
    {code : List Instruction} (hcode : Spelled src (instructionLines n [l]) code) :
    Stands src (n + 1) functions (some { f with nested, code := f.code ++ code }) := by
  cases h with
  | @inside before body groups _ htake hlayout hfunctions hdepth hmakes =>
    have hn : before.length + 1 + body.length = n := by
      have hlt := (List.getElem?_eq_some_iff.mp hl).1
      have hlength := congrArg List.length htake
      simp only [List.length_take, List.length_append, List.length_cons] at hlength
      omega
    -- the functions before stay as they are, only the body gets longer
    refine .inside (body ++ [l]) ?_ hlayout hfunctions ?_ ⟨rfl, hmakes.scope, ?_⟩
    · rw [take_succ hl, htake, List.append_assoc]
      rfl
    · rw [brackets_append, scopeWalk_append, hdepth]
      exact hwalk
    · rw [instructionLines_append]
      exact List.rel_append hmakes.code (hn ▸ hcode)

private theorem Stands.nest {f : OpenFunction} (h : Stands src n functions (some f))
    {nested : List Scope} (hinstruction : l.instruction? = none)
    (hwalk : scopeWalk f.nested.length (brackets [l]) = some nested.length) :
    Stands src (n + 1) functions (some { f with nested }) := by
  have hnone : instructionLines n [l] = [] := by simp [instructionLines, hinstruction]
  have hcode : Spelled src (instructionLines n [l]) [] := by
    rw [hnone]
    exact .nil
  simpa using h.extend hl hwalk hcode

private theorem Stands.stay {opened : Option OpenFunction} (h : Stands src n functions opened)
    (hbracket : l.bracket? = none) (hinstruction : l.instruction? = none) :
    Stands src (n + 1) functions opened := by
  cases opened with
  | none =>
    cases h with
    | outside hlayout hfunctions =>
      refine .outside ?_ hfunctions
      rw [take_succ hl]
      exact hlayout.other hbracket hinstruction
  | some f =>
    apply h.nest hl hinstruction
    simp [hbracket]

end Step

/-- What the reader has made of the first `n` lines. -/
structure Conforms (src : List Line) (n : Nat) (r : Reader) : Prop where
  reaches : Reader.Reaches src n r
  global : r.globalScope = scopeOf src 0
  stands : Stands src n r.program.functions r.opened
  outermost : ∀ m name, m < n → src[m]? = some (.directive (.openFunction name)) →
    Innermost src 0 m

private theorem conforms_start (src : List Line) : Conforms src 0 .start := by
  refine ⟨.start, rfl, .outside .nil .nil, ?_⟩
  intro m name hm
  cases hm

namespace Conforms
variable {src : List Line} {n : Nat} {r r' : Reader} {l : Line} (h : Conforms src n r)
include h

private theorem innermost (hopened : r.opened = none) : Innermost src 0 n := by
  obtain ⟨e, hinner, hscope⟩ := h.reaches.tracks.exists_innermost
  have hglobal : r.scope = scopeOf src 0 := by
    rw [Reader.scope, hopened]
    exact h.global
  have hstart : OpenAt src 0 0 := ((Nesting.start src).mem_iff 0).mp (by simp)
  rwa [eq_of_scopeOf_eq hinner.1 hstart (hscope.symm.trans hglobal)] at hinner

private theorem stands_of_turn (hl : src[n]? = some l) (hturn : r.Turn l r') :
    Stands src (n + 1) r'.program.functions r'.opened := by
  have hstands := h.stands
  cases hturn with
  | blank => exact hstands.stay hl rfl rfl
  | openFunction name hopened =>
    rw [hopened] at hstands
    cases hstands with
    | outside hlayout hfunctions =>
      have hlength : (src.take n).length = n :=
        List.length_take_of_le (Nat.le_of_lt (List.getElem?_eq_some_iff.mp hl).1)
      refine .inside [] (take_succ hl) hlayout hfunctions rfl ⟨rfl, ?_, .nil⟩
      -- as many scopes are in the table as brackets were opened before
      rw [hlength]
      exact h.reaches.tracks.newScope_eq hl rfl (some r.globalScope)
  | closeFunction hopened hnested =>
    rw [hopened] at hstands
    cases hstands with
    | inside body htake hlayout hfunctions hdepth hmakes =>
      rw [hnested] at hdepth
      refine .outside ?_ (List.rel_append hfunctions (.cons hmakes .nil))
      rw [take_succ hl, htake]
      exact hlayout.group _ ((balanced_iff _).mpr hdepth)
  | declare => exact hstands.stay hl rfl rfl
  | openScope hopened =>
    rw [hopened] at hstands
    exact hstands.nest hl rfl rfl
  | closeScope hopened hnested =>
    rw [hopened] at hstands
    apply hstands.nest hl rfl
    rw [hnested]
    rfl
  | instruction hi hopened =>
    rw [hopened] at hstands
    refine hstands.extend hl rfl (.cons ?_ .nil)
    rw [readInstruction_eq_ok_iff] at hi
    exact hi.mono fun name v hv => (h.reaches.tracks.names_iff name v).mp hv

private theorem turn (hl : src[n]? = some l) (hturn : r.Turn l r') : Conforms src (n + 1) r' := by
  refine ⟨h.reaches.line hl hturn.step, ?_, h.stands_of_turn hl hturn, ?_⟩
  · rw [← h.global]
    cases hturn <;> rfl
  · intro m name hm hline
    rcases Nat.lt_succ_iff_lt_or_eq.mp hm with hlt | rfl
    · exact h.outermost m name hlt hline
    · obtain rfl : l = .directive (.openFunction name) := Option.some.inj (hl.symm.trans hline)
      cases hturn with
      | openFunction _ hopened => exact h.innermost hopened

end Conforms

private theorem Reader.Reaches.exists_parent {src : List Line} {n m : Nat} {r : Reader} {l : Line}
    (h : Reaches src n r) (hm : m < n) (hl : src[m]? = some l) (hopens : l.opens = true) :
    ∃ e, Innermost src e m ∧
      r.program.symbols.parent (scopeOf src (m + 1)) = .ok (some (scopeOf src e)) := by
  obtain ⟨r₁, r₂, l', hreach, hl', hstep, hextends, _⟩ := h.exists_step hm
  obtain rfl : l = l' := Option.some.inj (hl.symm.trans hl')
  obtain ⟨e, hinner, hscope⟩ := hreach.tracks.exists_innermost
  have hsymbols : r₂.program.symbols = (r₁.program.symbols.newScope (some r₁.scope)).2 := by
    cases hstep with
    | opens _ hsymbols _ _ => exact hsymbols
    | closes hcloses _ _ _ =>
      rw [(Line.of_closes hcloses).1] at hopens
      cases hopens
    | blank => cases hopens
    | declares => cases hopens
    | instruction => cases hopens
  have hget : r₂.program.symbols.parent? (scopeOf src (m + 1)) = some (some (scopeOf src e)) := by
    rw [← hreach.tracks.newScope_eq hl hopens (some r₁.scope), hsymbols, ← hscope,
      SymbolTable.parent?_newScope, if_pos rfl]
  -- the lines that follow only add to the table
  refine ⟨e, hinner, ?_⟩
  rw [SymbolTable.parent, hextends.parents _ _ hget]

/-- The program has the functions and the scopes that the brackets of the source make. -/
structure Outlined (src : List Line) (p : Program) : Prop where
  grouped : Grouped (brackets src)
  functions : ∃ groups, Layout src groups ∧ List.Forall₂ (Group.Makes src) groups p.functions
  scopeCount : p.symbols.scopes.size = 1 + src.countP Line.opens
  globalScope : p.symbols.parent ⟨0⟩ = .ok none
  parents : ∀ n l, src[n]? = some l → l.opens = true → ∃ e, Innermost src e n ∧
    p.symbols.parent (scopeOf src (n + 1)) = .ok (some (scopeOf src e)) ∧
      ∀ name, l = .directive (.openFunction name) → scopeOf src e = ⟨0⟩

private theorem Conforms.outlined {src : List Line} {r : Reader} (h : Conforms src src.length r)
    (hopened : r.opened = none) : Outlined src r.program := by
  have htracks := h.reaches.tracks
  have hstands := h.stands
  rw [hopened] at hstands
  cases hstands with
  | @outside groups hlayout hfunctions =>
    rw [List.take_length] at hlayout
    refine ⟨hlayout.grouped, ⟨groups, hlayout, hfunctions⟩, ?_, ?_, ?_⟩
    · rw [htracks.scopeCount, List.take_length, Nat.add_comm]
    · have houtward : r.program.symbols.Outward r.scopes := htracks.sound
      rw [Reader.scopes, hopened, h.global] at houtward
      change r.program.symbols.parent? ⟨0⟩ = some none at houtward
      rw [SymbolTable.parent, houtward]
    · intro n l hl hopens
      have hn := (List.getElem?_eq_some_iff.mp hl).1
      obtain ⟨e, hinner, hparent⟩ := h.reaches.exists_parent hn hl hopens
      refine ⟨e, hinner, hparent, ?_⟩
      rintro name rfl
      rw [hinner.eq (h.outermost n name hn hl)]
      rfl

namespace Reader

def depth (r : Reader) : Option Nat := r.opened.map fun f => f.nested.length

private theorem depthStep_of_turn {r r' : Reader} {l : Line} {d : Directive} (h : r.Turn l r')
    (hl : l.bracket? = some d) : depthStep r.depth d = some r'.depth := by
  cases h with
  | blank => cases hl
  | openFunction name hopened =>
    obtain rfl := Option.some.inj hl
    simp [depth, hopened, depthStep]
  | closeFunction hopened hnested =>
    obtain rfl := Option.some.inj hl
    simp [depth, hopened, hnested, depthStep]
  | declare => cases hl
  | openScope hopened =>
    obtain rfl := Option.some.inj hl
    simp [depth, hopened, depthStep]
  | closeScope hopened hnested =>
    obtain rfl := Option.some.inj hl
    simp [depth, hopened, hnested, depthStep]
  | instruction => cases hl

private theorem exists_turn_of_depthStep {r : Reader} {d : Directive} {next : Option Nat}
    (h : depthStep r.depth d = some next) : ∃ r', r.Turn (.directive d) r' := by
  cases hopened : r.opened with
  | none =>
    rw [depth, hopened] at h
    cases d with
    | openFunction name => exact ⟨_, .openFunction name hopened⟩
    | _ => cases h
  | some f =>
    cases hnested : f.nested with
    | nil =>
      rw [depth, hopened, Option.map_some, hnested] at h
      cases d with
      | closeFunction => exact ⟨_, .closeFunction hopened hnested⟩
      | openScope => exact ⟨_, .openScope hopened⟩
      | _ => cases h
    | cons s nested =>
      rw [depth, hopened, Option.map_some, hnested] at h
      cases d with
      | openScope => exact ⟨_, .openScope hopened⟩
      | closeScope => exact ⟨_, .closeScope hopened hnested⟩
      | _ => cases h

end Reader

def OnlyBrackets (src : List Line) : Prop := ∀ l ∈ src, l = .blank ∨ l.bracket?.isSome = true

instance (src : List Line) : Decidable (OnlyBrackets src) :=
  inferInstanceAs (Decidable (∀ l ∈ src, l = .blank ∨ l.bracket?.isSome = true))

namespace Reader

/-- A bracket is taken exactly if it leads to some depth. -/
theorem takeLine_bracket (r : Reader) {l : Line} (hl : l = .blank ∨ l.bracket?.isSome = true) :
    (∃ r', r.takeLine l = .ok r' ∧ depthWalk r.depth l.bracket?.toList = some r'.depth) ∨
      ∃ refusal, r.takeLine l = .error refusal ∧ depthWalk r.depth l.bracket?.toList = none := by
  rcases hl with rfl | hl
  · exact .inl ⟨r, rfl, rfl⟩
  · obtain ⟨d, hd⟩ := Option.isSome_iff_exists.mp hl
    obtain rfl : l = .directive d := by
      unfold Line.bracket? at hd
      split at hd <;> cases hd
      rfl
    have hwalk : depthWalk r.depth (Line.directive d).bracket?.toList = depthStep r.depth d := by
      simp [hd]
    rw [hwalk]
    cases hread : r.takeLine (.directive d) with
    | ok r' => exact .inl ⟨r', rfl, depthStep_of_turn (turn_of_takeLine hread) hd⟩
    | error refusal =>
      refine .inr ⟨refusal, rfl, ?_⟩
      cases hstep : depthStep r.depth d with
      | none => rfl
      | some next =>
        obtain ⟨r', hturn⟩ := exists_turn_of_depthStep hstep
        have hok := (direct_eq_ok_iff r d r').mpr hturn
        cases hread.symm.trans hok

private theorem readLines_brackets {text : List (List Char)}
    (h : OnlyBrackets (text.map Line.ofText)) (r : Reader) (number : Nat) :
    (∃ r', r.readLines number text = .ok r' ∧
      depthWalk r.depth (brackets (text.map Line.ofText)) = some r'.depth) ∨
    ∃ n refusal depth, r.readLines number text = .error ⟨number + n, refusal⟩ ∧
      depthWalk r.depth (brackets ((text.map Line.ofText).take n)) = some depth ∧
      depthWalk r.depth (brackets ((text.map Line.ofText).take (n + 1))) = none := by
  induction text generalizing r number with
  | nil => exact .inl ⟨r, rfl, rfl⟩
  | cons line text ih =>
    obtain ⟨hline, htext⟩ := List.forall_mem_cons.mp h
    rcases r.takeLine_bracket hline with ⟨r₁, hread, hwalk⟩ | ⟨refusal, hread, hwalk⟩
    · have hcons : r.readLines number (line :: text) = r₁.readLines (number + 1) text := by
        rw [readLines, readLine_eq, hread]
      rw [hcons]
      rcases ih htext r₁ (number + 1) with
        ⟨r', hrest, hdepth⟩ | ⟨n, refusal, depth, hrest, hbefore, hstop⟩
      · refine .inl ⟨r', hrest, ?_⟩
        simp [depthWalk_append, hwalk, hdepth]
      · refine .inr ⟨n + 1, refusal, depth, ?_, ?_, ?_⟩
        · rw [hrest, Nat.add_assoc, Nat.add_comm 1]
        · simp [depthWalk_append, hwalk, hbefore]
        · simp [depthWalk_append, hwalk, hstop]
    · refine .inr ⟨0, refusal, r.depth, ?_, rfl, ?_⟩
      · rw [readLines, readLine_eq, hread]
        rfl
      · simpa using hwalk

end Reader

private theorem conforms_of_readLines {source : String} {r : Reader}
    (h : Reader.start.readLines 1 (Text.lines source.toList) = .ok r) :
    Conforms (sourceLines source) (sourceLines source).length r := by
  have hconforms := Reader.readLines_invariant (P := Conforms (sourceLines source))
    (fun n l r r' hl hturn hr => hr.turn hl hturn) (List.nil_append _)
    (conforms_start (sourceLines source)) h
  simpa [sourceLines] using hconforms

private theorem outlined_of_readProgram {source : String} {p : Program}
    (h : readProgram source = .ok p) :
    Outlined (sourceLines source) p := by
  simp only [readProgram] at h
  split at h
  · cases h
  · next r hlines =>
    split at h
    · cases h
    · next hopened =>
      obtain rfl := Except.ok.inj h
      exact (conforms_of_readLines hlines).outlined hopened

private theorem Conforms.exists_opened {src : List Line} {r : Reader} {f : OpenFunction}
    (h : Conforms src src.length r) (hopened : r.opened = some f) :
    ∃ before body, brackets src = before ++ .openFunction f.name :: body ∧ Grouped before ∧
      .closeFunction ∉ body := by
  have hstands := h.stands
  rw [hopened] at hstands
  cases hstands with
  | @inside before body groups _ htake hlayout _ hdepth _ =>
    rw [List.take_length] at htake
    refine ⟨brackets before, brackets body, ?_, hlayout.grouped, closeFunction_not_mem hdepth⟩
    rw [htake]
    simp [Line.bracket?]

private theorem exists_program_of_grouped {source : String} (h : OnlyBrackets (sourceLines source))
    (hgrouped : Grouped (brackets (sourceLines source))) : ∃ p, readProgram source = .ok p := by
  have hend := hgrouped.depthWalk
  rcases Reader.readLines_brackets h .start 1 with
    ⟨r, hread, hdepth⟩ | ⟨n, refusal, depth, _, _, hstop⟩
  · have hnone : r.depth = none := Option.some.inj (hdepth.symm.trans hend)
    have hopened : r.opened = none := Option.map_eq_none_iff.mp hnone
    exact ⟨r.program, by simp [readProgram, hread, hopened]⟩
  · -- the walk stops in the middle, so it does not reach the end of the word
    have hword : depthWalk none (brackets ((sourceLines source).take (n + 1))) = none := hstop
    rw [← List.take_append_drop (n + 1) (sourceLines source), brackets_append, depthWalk_append,
      hword] at hend
    cases hend

/-- Why a source of nothing but brackets is refused: after the line of the error no way to go on
leads to functions one after the other, or all that is wrong is that the last function is not
closed. -/
inductive Refused (src : List Line) : ReadError → Prop
  | line {n : Nat} {refusal : Refusal} (hbefore : Extensible (brackets (src.take n)))
    (hstop : ¬ Extensible (brackets (src.take (n + 1)))) : Refused src ⟨n + 1, refusal⟩
  | unterminated {before body : List Directive} {name : String} (h : Extensible (brackets src))
    (hword : brackets src = before ++ .openFunction name :: body) (hbefore : Grouped before)
    (hbody : .closeFunction ∉ body) : Refused src ⟨src.length, .functionStillOpen name⟩

private theorem refused_of_not_grouped {source : String} (h : OnlyBrackets (sourceLines source))
    (hnot : ¬ Grouped (brackets (sourceLines source))) :
    ∃ e, readProgram source = .error e ∧ Refused (sourceLines source) e := by
  rcases Reader.readLines_brackets h .start 1 with
    ⟨r, hread, hdepth⟩ | ⟨n, refusal, depth, hread, hbefore, hstop⟩
  · cases hopened : r.opened with
    | none =>
      have hnone : r.depth = none := Option.map_eq_none_iff.mpr hopened
      rw [hnone] at hdepth
      exact (hnot ((grouped_iff _).mpr hdepth)).elim
    | some f =>
      obtain ⟨before, body, hword, hgrouped, hlast⟩ :=
        (conforms_of_readLines hread).exists_opened hopened
      refine ⟨_, ?_, .unterminated ((extensible_iff _).mpr ⟨_, hdepth⟩) hword hgrouped hlast⟩
      simp [readProgram, hread, hopened, sourceLines]
  · refine ⟨⟨n + 1, refusal⟩, ?_, .line ((extensible_iff _).mpr ⟨depth, hbefore⟩) ?_⟩
    · rw [readProgram, hread, Nat.add_comm]
    · rw [extensible_iff]
      rintro ⟨next, hnext⟩
      cases hstop.symm.trans hnext

/-- The brackets of an accepted source are functions one after the other, and the program has the
functions and scopes that they make. A source of nothing but brackets is accepted if they are
of this form. If not, it is refused on the first line after which no way to go on leads to this
form, or at its end if only the last function is not closed. -/
theorem readProgram_reads_brackets (source : String) :
    (∀ p, readProgram source = .ok p → Outlined (sourceLines source) p) ∧
    (OnlyBrackets (sourceLines source) →
      (Grouped (brackets (sourceLines source)) → ∃ p, readProgram source = .ok p) ∧
      (¬ Grouped (brackets (sourceLines source)) →
        ∃ e, readProgram source = .error e ∧ Refused (sourceLines source) e)) := by
  constructor
  · intro p hp
    exact outlined_of_readProgram hp
  · intro honly
    exact ⟨exists_program_of_grouped honly, refused_of_not_grouped honly⟩

theorem readProgram_reads_brackets_nested :
    let closed := "# scopes\n.func f\n.scope\n.endscope\n.endfunc\n.func g\n.endfunc"
    let cut := ".func f\n.scope\n"
    (∃ p, readProgram closed = .ok p ∧ p.symbols.scopes.size = 4 ∧
      p.symbols.parent ⟨0⟩ = .ok none) ∧
    ∃ e, readProgram cut = .error e ∧ Refused (sourceLines cut) e := by
  intro closed cut
  constructor
  · obtain ⟨haccepted, hbrackets⟩ := readProgram_reads_brackets closed
    obtain ⟨p, hp⟩ := (hbrackets (by decide +kernel)).1 (by decide +kernel)
    have hcount : (sourceLines closed).countP Line.opens = 3 := by decide +kernel
    have houtlined := haccepted p hp
    refine ⟨p, hp, ?_, houtlined.globalScope⟩
    rw [houtlined.scopeCount, hcount]
  · exact ((readProgram_reads_brackets cut).2 (by decide +kernel)).2 (by decide +kernel)

end RegisterColoring.Source
