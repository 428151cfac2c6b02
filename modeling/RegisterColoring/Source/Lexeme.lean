import RegisterColoring.Text.Basic
import RegisterColoring.Text.Split

namespace RegisterColoring.Source
open Text

def quoteAfter (quote : Option Char) (c : Char) : Option Char :=
  match quote with
  | none => if c = '"' ∨ c = '\'' then some c else none
  | some q => if c = q then none else some q

/-- The bracket depth after a character. A closing bracket too many does not count. -/
def depthAfter (quote : Option Char) (depth : Nat) (c : Char) : Nat :=
  match quote with
  | none => if c = '[' then depth + 1 else if c = ']' then depth - 1 else depth
  | some _ => depth

/-- The text before a comment sign outside quotes. -/
def beforeComment (quote : Option Char) : List Char → List Char
  | [] => []
  | c :: cs =>
    if quote = none ∧ c = '#' then [] else c :: beforeComment (quoteAfter quote c) cs

def commaPieces (quote : Option Char) (depth : Nat) : List Char → List (List Char)
  | [] => [[]]
  | c :: cs =>
    if quote = none ∧ depth = 0 ∧ c = ',' then [] :: commaPieces none 0 cs
    else consHead c (commaPieces (quoteAfter quote c) (depthAfter quote depth c) cs)

/-- The texts of the operands. Nothing but blanks is no operand at all. -/
def operandTexts (cs : List Char) : List (List Char) :=
  let parts := (commaPieces none 0 cs).map trim
  if parts = [[]] then [] else parts

def isQuoted (q : Char) (cs : List Char) : Bool :=
  2 ≤ cs.length && cs.head? == some q && cs.getLast? == some q

/-- A digit, then letters, digits, points and underscores. -/
def isNumeral : List Char → Bool
  | [] => false
  | c :: cs => c.isDigit && cs.all fun d => d.isAlphanum || d == '.' || d == '_'

/-- A constant word, a quoted text, or a numeral that may have a minus sign. -/
def isLiteral (cs : List Char) : Bool :=
  cs == ['t', 'r', 'u', 'e'] || cs == ['f', 'a', 'l', 's', 'e'] || cs == ['n', 'u', 'l', 'l'] ||
    isQuoted '"' cs || isQuoted '\'' cs ||
    match cs with
    | '-' :: digits => isNumeral digits
    | _ => isNumeral cs

/-- The label of an instruction line with its colons, and the text after it. -/
def splitLabel (line : List Char) : Option (List Char) × List Char :=
  match cut isBlank line with
  | some (first, rest) =>
    if first.getLast? = some ':' then (some first, trim rest) else (none, line)
  | none => if line.getLast? = some ':' then (some line, []) else (none, line)

def splitWord (cs : List Char) : List Char × List Char :=
  match cut isBlank cs with
  | some (word, rest) => (word, trim rest)
  | none => (cs, [])

end RegisterColoring.Source
