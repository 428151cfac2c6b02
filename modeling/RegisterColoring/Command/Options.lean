/-!
# Options of the command line

One input, limits on the two register pools, listings to print and a verbosity. An
argument that starts with a hyphen is an option, until a lone double hyphen.
-/
namespace RegisterColoring.Command

/-- An intermediate result that can be printed. -/
inductive Dump
  | blocks
  | liveness
  | intervals
  | interference
deriving DecidableEq

namespace Dump

def text : Dump → String
  | .blocks => "blocks"
  | .liveness => "liveness"
  | .intervals => "intervals"
  | .interference => "interference"

def ofText? (s : String) : Option Dump :=
  [Dump.blocks, .liveness, .intervals, .interference].find? fun d => d.text = s

end Dump

structure Options where
  input : Option String
  generalLimit : Option Nat
  floatLimit : Option Nat
  dumps : List Dump
  verbosity : Nat

inductive Request
  | run (input : String) (options : Options)
  | help
  | usageError

/-- Why the reading of arguments ended early. -/
inductive Interruption
  | help
  | usageError

/-- Digits with an optional plus sign, below 2^64. -/
def readCount? (s : String) : Option Nat :=
  let digits := match s.toList with
    | '+' :: ds => ds
    | ds => ds
  if digits.isEmpty || !digits.all Char.isDigit then none
  else
    let n := digits.foldl (fun n d => n * 10 + (d.toNat - '0'.toNat)) 0
    if n < UInt64.size then some n else none

/-- An option that takes a value. -/
inductive Valued
  | generalLimit
  | floatLimit
  | dump

namespace Valued

def ofName? (name : String) : Option Valued :=
  match name with
  | "int-regs" => some .generalLimit
  | "float-regs" => some .floatLimit
  | "dump" => some .dump
  | _ => none

end Valued

namespace Options

def empty : Options := ⟨none, none, none, [], 0⟩

/-- Take a value. A limit is given once, a dump any number of times. -/
def set (o : Options) (option : Valued) (value : String) : Except Interruption Options :=
  match option with
  | .generalLimit =>
    match o.generalLimit, readCount? value with
    | none, some n => .ok { o with generalLimit := some n }
    | _, _ => .error .usageError
  | .floatLimit =>
    match o.floatLimit, readCount? value with
    | none, some n => .ok { o with floatLimit := some n }
    | _, _ => .error .usageError
  | .dump =>
    match Dump.ofText? value with
    | some d => .ok { o with dumps := o.dumps ++ [d] }
    | none => .error .usageError

def setInput (o : Options) (value : String) : Except Interruption Options :=
  match o.input with
  | none => .ok { o with input := some value }
  | some _ => .error .usageError

/-- Take single-letter options that stand together. -/
def setFlags (o : Options) : List Char → Except Interruption Options
  | [] => .ok o
  | 'v' :: rest => { o with verbosity := o.verbosity + 1 }.setFlags rest
  | 'h' :: _ => .error .help
  | _ :: _ => .error .usageError

/-- A long option and the value after its equals sign. -/
def splitLong (body : List Char) : String × Option String :=
  match body.span (· ≠ '=') with
  | (name, []) => (String.ofList name, none)
  | (name, _ :: value) => (String.ofList name, some (String.ofList value))

/-- Whether an argument starts an option or ends the options. -/
def isHyphenated (arg : String) : Bool :=
  match arg.toList with
  | '-' :: _ :: _ => true
  | _ => false

/-- Read arguments none of which is an option. -/
def readInputs (o : Options) : List String → Except Interruption Options
  | [] => .ok o
  | arg :: rest => do
    let o ← o.setInput arg
    o.readInputs rest

/-- Read arguments. The value of a long option may be the next argument, if that is not an
option itself. -/
def read (o : Options) : List String → Except Interruption Options
  | [] => .ok o
  | arg :: rest =>
    match arg.toList with
    | ['-', '-'] => o.readInputs rest
    | '-' :: '-' :: body =>
      match splitLong body, rest with
      | ("help", none), _ => .error .help
      | (name, some value), rest =>
        match Valued.ofName? name with
        | none => .error .usageError
        | some option => do
          let o ← o.set option value
          o.read rest
      | (name, none), value :: rest =>
        match Valued.ofName? name with
        | none => .error .usageError
        | some option =>
          if isHyphenated value then .error .usageError
          else do
            let o ← o.set option value
            o.read rest
      | (_, none), [] => .error .usageError
    | '-' :: flag :: flags => do
      let o ← o.setFlags (flag :: flags)
      o.read rest
    | _ => do
      let o ← o.setInput arg
      o.read rest

end Options

def Request.ofArgs (args : List String) : Request :=
  match Options.empty.read args with
  | .error .help => .help
  | .error .usageError => .usageError
  | .ok o =>
    match o.input with
    | some input => .run input o
    | none => .usageError

def Request.input? : Request → Option String
  | .run input _ => some input
  | _ => none

end RegisterColoring.Command
