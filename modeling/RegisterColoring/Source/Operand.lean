import RegisterColoring.Instruction
import RegisterColoring.Source.Lexeme
import RegisterColoring.Source.ReadError

namespace RegisterColoring.Source
open Text

/-- What a name stands for on the line that is read. -/
abbrev Names := String → Except Fault (Option Variable)

/-- The variable that stands as `name` in the operand `text`. -/
def resolve (names : Names) (text name : List Char) : Except Refusal Variable :=
  if isIdentifier name then
    match names (String.ofList name) with
    | .ok (some v) => .ok v
    | .ok none => .error (.undeclared (String.ofList name))
    | .error cause => .error (.symbol (.fault cause))
  else .error (.malformedOperand (String.ofList text))

/-- An operand without brackets that is not a literal. -/
def readPlain (names : Names) (text : List Char) : Except Refusal Operand :=
  match cut (· == '.') text with
  | some (base, field) =>
    if isIdentifier field then do
      let v ← resolve names text base
      .ok (.member v (String.ofList field))
    else .error (.malformedOperand (String.ofList text))
  | none => do
    let v ← resolve names text text
    .ok (.var v)

/-- Base and trimmed index of an element whose bracket closes at the end of the text. -/
def splitElement (text : List Char) : Option (List Char × Option (List Char)) :=
  (cut (· == '[') text).map fun r => (r.1, (dropLast? ']' r.2).map trim)

private theorem length_lt_of_splitElement {text base index : List Char}
    (h : splitElement text = some (base, some index)) : index.length < text.length := by
  simp only [splitElement, Option.map_eq_some_iff, Prod.mk.injEq] at h
  obtain ⟨⟨front, rest⟩, hcut, rfl, inner, hinner, rfl⟩ := h
  obtain ⟨c, -, rfl⟩ := cut_eq_some hcut
  have := length_trim_le inner
  have := length_of_dropLast? hinner
  simp only [List.length_append, List.length_cons] at *
  omega

/-- Read an operand in a position where no label stands. -/
def readOperand (names : Names) (text : List Char) : Except Refusal Operand :=
  if isLiteral text then .ok (.literal (String.ofList text))
  else
    match _h : splitElement text with
    | none => readPlain names text
    | some (_, none) => .error (.malformedOperand (String.ofList text))
    | some (base, some index) => do
      let v ← resolve names text base
      let operand ← readOperand names index
      .ok (.element v operand)
termination_by text.length
decreasing_by exact length_lt_of_splitElement _h

def readLabel (text : List Char) : Except Refusal Operand :=
  if isIdentifier text then .ok (.label (String.ofList text))
  else .error (.malformedOperand (String.ofList text))

def readOperands (names : Names) (opcode : Opcode) (texts : List (List Char)) :
    Except Refusal (List Operand) :=
  texts.zipIdx.mapM fun (text, k) =>
    if opcode.labelOperand = some k then readLabel text else readOperand names text

end RegisterColoring.Source
