import RegisterColoring.Flow.Bounds
import RegisterColoring.Live.Range
import RegisterColoring.VarSet
import Std.Data.TreeMap

namespace RegisterColoring

/-- Lines on which variables occur, by variable and by line. -/
structure Mentions where
  /-- The lines of each variable in the order they were recorded. -/
  linesOf : Std.TreeMap Nat (List Nat)
  /-- The variables of each line, counted from the first line of the block. -/
  perLine : Array (List Nat)

namespace Mentions

def none (count : Nat) : Mentions := ⟨∅, Array.replicate count []⟩

/-- Record a variable on a line of a block that starts at `first`. A line lists it once. -/
def record (m : Mentions) (first line id : Nat) : Mentions :=
  if (m.perLine[line - first]?.getD []).contains id then m
  else
    { linesOf := m.linesOf.insert id (m.linesOf.getD id [] ++ [line])
      perLine := m.perLine.modify (line - first) (· ++ [id]) }

def ids (m : Mentions) : VarSet := VarSet.ofList m.linesOf.keys

end Mentions

inductive Access
  | define
  | use
deriving DecidableEq

/-- A maximal straight run of instructions. -/
structure Block where
  first : Nat
  last : Nat
  /-- The label of the first instruction, if it has one. -/
  label : Option String
  uses : Mentions
  defs : Mentions
  /-- Variables live on entry. -/
  liveIn : VarSet
  /-- Variables live on exit. -/
  liveOut : VarSet
  /-- Live ranges within the block by ascending variable. -/
  ranges : List (Nat × List Range)

namespace Block

/-- A block of the code without any record. -/
def ofBounds (code : List Instruction) (b : Bounds) : Block where
  first := b.first
  last := b.last
  label := (code[b.first]?.filter Instruction.hasLabel).bind (·.label)
  uses := .none (b.last + 1 - b.first)
  defs := .none (b.last + 1 - b.first)
  liveIn := ∅
  liveOut := ∅
  ranges := []

def lines (b : Block) : List Nat := List.range' b.first (b.last + 1 - b.first)

def contains (b : Block) (line : Nat) : Bool := b.first ≤ line && line ≤ b.last

/-- Variables used on a line of the block, in recorded order. -/
def usesAt? (b : Block) (line : Nat) : Option (List Nat) :=
  if b.first ≤ line then b.uses.perLine[line - b.first]? else none

/-- Variables defined on a line of the block, in recorded order. -/
def defsAt? (b : Block) (line : Nat) : Option (List Nat) :=
  if b.first ≤ line then b.defs.perLine[line - b.first]? else none

def record (b : Block) (access : Access) (line id : Nat) : Block :=
  match access with
  | .define => { b with defs := b.defs.record b.first line id }
  | .use => { b with uses := b.uses.record b.first line id }

/-- The variables that the block mentions or carries. -/
def referenced (b : Block) : VarSet :=
  VarSet.unions [b.uses.ids, b.defs.ids, b.liveIn, b.liveOut]

def idText (id : Nat) : String := "B" ++ toString id

end Block

end RegisterColoring
