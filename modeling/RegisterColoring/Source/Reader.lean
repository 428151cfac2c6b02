import RegisterColoring.Program
import RegisterColoring.Source.Directive
import RegisterColoring.Source.Operand
/-!
# Reading programs

A program is read line by line. The reader holds what has been read and the function
that is open. Names resolve against the scopes that are open on their line.
-/
namespace RegisterColoring.Source
open Text

/-- A function between its first and its last line. -/
structure OpenFunction where
  name : String
  /-- The scope of the body. -/
  body : Scope
  /-- The nested scopes that are open, the innermost first. -/
  nested : List Scope
  code : List Instruction

/-- The state between two lines. -/
structure Reader where
  program : Program
  globalScope : Scope
  opened : Option OpenFunction

namespace Reader

/-- Nothing read yet: the table has one scope, the global one. -/
def start : Reader :=
  let (globalScope, symbols) := SymbolTable.empty.newScope none
  { program := ⟨symbols, []⟩, globalScope, opened := none }

def scope (r : Reader) : Scope :=
  match r.opened with
  | none => r.globalScope
  | some f => f.nested.headD f.body

def names (r : Reader) : Names := fun name => r.program.symbols.lookup r.scope name

def withSymbols (r : Reader) (symbols : SymbolTable) : Reader :=
  { r with program := { r.program with symbols } }

def direct (r : Reader) : Directive → Except Refusal Reader
  | .openFunction name =>
    match r.opened with
    | some f => .error (.functionStillOpen f.name)
    | none =>
      let (body, symbols) := r.program.symbols.newScope (some r.globalScope)
      .ok { r.withSymbols symbols with opened := some ⟨name, body, [], []⟩ }
  | .closeFunction =>
    match r.opened with
    | none => .error (.outsideFunction ".endfunc")
    | some f =>
      if f.nested.isEmpty then
        let functions := r.program.functions ++ [⟨f.name, f.body, f.code⟩]
        .ok { r with program := { r.program with functions }, opened := none }
      else .error .unmatchedEndscope
  | .declare name type =>
    match ValueType.ofText? type with
    | none => .error (.symbol (.unknownType type))
    | some type =>
      match r.program.symbols.declare r.scope name type with
      | .error cause => .error (.symbol cause)
      | .ok (_, symbols) => .ok (r.withSymbols symbols)
  | .openScope =>
    match r.opened with
    | none => .error (.outsideFunction ".scope")
    | some f =>
      let (scope, symbols) := r.program.symbols.newScope (some r.scope)
      .ok { r.withSymbols symbols with opened := some { f with nested := scope :: f.nested } }
  | .closeScope =>
    match r.opened with
    | none => .error (.outsideFunction ".endscope")
    | some f =>
      match f.nested with
      | [] => .error .unmatchedEndscope
      | _ :: nested => .ok { r with opened := some { f with nested } }

/-- Read the label before an operation. All colons at its end are dropped. -/
def readLineLabel : Option (List Char) → Except Refusal (Option String)
  | none => .ok none
  | some marked =>
    let label := dropEndWhile (· == ':') marked
    if isIdentifier label then .ok (some (String.ofList label))
    else .error (.malformedOperand (String.ofList label))

/-- Read an instruction, given without comment and outer blanks. -/
def readInstruction (names : Names) (line : List Char) : Except Refusal Instruction := do
  let (marked, rest) := splitLabel line
  let label ← readLineLabel marked
  let (word, args) := splitWord rest
  match Opcode.ofText? (String.ofList word) with
  | none => .error (.unknownOpcode (String.ofList word))
  | some opcode =>
    let operands ← readOperands names opcode (operandTexts args)
    .ok { label, opcode, operands }

def operationWord (line : List Char) : List Char := (splitWord (splitLabel line).2).1

def append (r : Reader) (word : List Char) (i : Instruction) : Except Refusal Reader :=
  match r.opened with
  | none => .error (.outsideFunction (String.ofList word))
  | some f => .ok { r with opened := some { f with code := f.code ++ [i] } }

def readLine (r : Reader) (line : List Char) : Except Refusal Reader :=
  match trim (beforeComment none line) with
  | [] => .ok r
  | '.' :: rest =>
    match Directive.ofWords? ((words ('.' :: rest)).map String.ofList) with
    | some d => r.direct d
    | none => .error (.malformedDirective (String.ofList ('.' :: rest)))
  | c :: rest => do
    let i ← readInstruction r.names (c :: rest)
    r.append (operationWord (c :: rest)) i

/-- Read lines, of which the first has the number `number`. -/
def readLines (r : Reader) (number : Nat) : List (List Char) → Except ReadError Reader
  | [] => .ok r
  | line :: rest =>
    match r.readLine line with
    | .error refusal => .error ⟨number, refusal⟩
    | .ok r => r.readLines (number + 1) rest

end Reader

/-- Read a program. A function left open is found after the last line. -/
def readProgram (source : String) : Except ReadError Program :=
  let text := lines source.toList
  match Reader.start.readLines 1 text with
  | .error e => .error e
  | .ok r =>
    match r.opened with
    | some f => .error ⟨text.length, .functionStillOpen f.name⟩
    | none => .ok r.program

end RegisterColoring.Source
