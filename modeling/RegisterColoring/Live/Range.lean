namespace RegisterColoring

/-- The lines from `start` up to but not including `stop`. -/
structure Range where
  start : Nat
  stop : Nat
deriving DecidableEq

namespace Range

/-- Ranges that share a line or touch. -/
def overlaps (r s : Range) : Bool := max r.start s.start ≤ min r.stop s.stop

def contains (r : Range) (line : Nat) : Bool := r.start ≤ line && line < r.stop

def le (r s : Range) : Bool := r.start < s.start || (r.start == s.start && r.stop ≤ s.stop)

def text (r : Range) : String := "[" ++ toString r.start ++ ", " ++ toString r.stop ++ ")"

/-- Join overlapping neighbours of a sorted list that starts with `r`. -/
def joinFrom (r : Range) : List Range → List Range
  | [] => [r]
  | s :: rest =>
    if r.overlaps s then joinFrom ⟨r.start, max r.stop s.stop⟩ rest else r :: joinFrom s rest

def join : List Range → List Range
  | [] => []
  | r :: rest => joinFrom r rest

def sort (ranges : List Range) : List Range := ranges.mergeSort le

/-- Sort the ranges and join those that overlap. -/
def merge (ranges : List Range) : List Range := join (sort ranges)

end Range

/-- The ranges of one variable as they were reported, and their merged form at the time
of the last merge. -/
structure LiveInfo where
  ranges : List Range
  merged : List Range

namespace LiveInfo

def empty : LiveInfo := ⟨[], []⟩

def add (info : LiveInfo) (ranges : List Range) : LiveInfo :=
  { info with ranges := info.ranges ++ ranges }

def merge (info : LiveInfo) : LiveInfo := { info with merged := Range.merge info.ranges }

def isLiveAt (info : LiveInfo) (line : Nat) : Bool := info.merged.any fun r => r.contains line

def text (info : LiveInfo) : String := " ".intercalate (info.merged.map Range.text)

end LiveInfo

end RegisterColoring
