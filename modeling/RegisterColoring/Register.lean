import RegisterColoring.ValueType

namespace RegisterColoring

inductive RegisterClass
  | general
  | float
deriving DecidableEq

/-- A register: its file and its hardware number there. -/
structure Register where
  number : Nat
  file : RegisterClass
deriving DecidableEq

namespace RegisterClass

/-- The file that keeps values of a type. -/
def ofType (type : ValueType) : RegisterClass := if type.isFloating then .float else .general

def text : RegisterClass → String
  | .general => "general purpose"
  | .float => "floating point"

def describe : RegisterClass → String
  | .general => "General"
  | .float => "Float"

/-- The general file comes first. -/
def rank : RegisterClass → Nat
  | .general => 0
  | .float => 1

end RegisterClass

namespace Register

def generalNames : List String :=
  ["rax", "rcx", "rdx", "rbx", "rsp", "rbp", "rsi", "rdi", "r8", "r9", "r10", "r11", "r12", "r13",
    "r14", "r15"]

def floatNames : List String :=
  ["xmm0", "xmm1", "xmm2", "xmm3", "xmm4", "xmm5", "xmm6", "xmm7", "xmm8", "xmm9", "xmm10", "xmm11",
    "xmm12", "xmm13", "xmm14", "xmm15"]

def namesOf : RegisterClass → List String
  | .general => generalNames
  | .float => floatNames

def text (r : Register) : String := (namesOf r.file)[r.number]?.getD "<invalid>"

def ofText? (s : String) : Option Register :=
  match generalNames.idxOf? s with
  | some n => some ⟨n, .general⟩
  | none => (floatNames.idxOf? s).map fun n => ⟨n, .float⟩

def describe (r : Register) : String :=
  "PReg(" ++ toString r.number ++ ", " ++ r.file.describe ++ ")"

/-- By number, then by file. -/
def le (r s : Register) : Bool :=
  r.number < s.number || (r.number == s.number && r.file.rank ≤ s.file.rank)

end Register

/-- The registers of each file that may be handed out, in the order they are tried. -/
structure Pools where
  general : List Register
  float : List Register

namespace Pools

/-- All registers but the two that hold the frame. -/
def standard : Pools where
  general := [0, 3, 1, 2, 6, 7, 8, 9, 10, 11, 12, 13, 14, 15].map fun n => ⟨n, .general⟩
  float := (List.range 16).map fun n => ⟨n, .float⟩

/-- Only the first registers of each file. -/
def take (p : Pools) (general float : Nat) : Pools where
  general := p.general.take general
  float := p.float.take float

def ofClass (p : Pools) : RegisterClass → List Register
  | .general => p.general
  | .float => p.float

end Pools

end RegisterColoring
