import RegisterColoring.Command.Folder
import RegisterColoring.Command.Options
import RegisterColoring.Live.Listing
import RegisterColoring.Log.OfRun
import RegisterColoring.Source.Reader
/-!
# Running the command line

Every function of the input is allocated in turn and its listing printed. The first
function that cannot be allocated ends the run.
-/
namespace RegisterColoring.Command

inductive Failure
  | unreadable (path : String) (cause : Unreadable)
  | source (path : String) (cause : Source.ReadError)
  | allocation (function : String) (cause : AllocError)
  | listing (cause : Fault)

def Failure.message : Failure → String
  | .unreadable path cause => "cannot read `" ++ path ++ "`: " ++ cause.message
  | .source path cause => path ++ ":" ++ cause.message
  | .allocation function cause => "while allocating `" ++ function ++ "`: " ++ cause.message
  | .listing cause => cause.message

/-- What a run has printed and logged, with the allocator it uses. -/
structure Session where
  allocator : Allocator
  stdout : String
  log : List Log.Entry

structure Output where
  exitCode : Nat
  stdout : String
  stderr : List String

namespace Session

def print (s : Session) (text : String) : Session := { s with stdout := s.stdout ++ text }

def note (s : Session) (entries : List Log.Entry) : Session := { s with log := s.log ++ entries }

/-- Print an intermediate result, for which the flow graph is analysed again. -/
def dump (s : Session) (g : FlowGraph) (f : Function) (t : SymbolTable) (what : Dump) :
    Except Fault (Session × FlowGraph) := do
  let (g, count) := g.analyze
  let s := (s.print ("-- " ++ what.text ++ " --\n")).note (Log.ofSweeps g count)
  match what with
  | .blocks => .ok (s.print (← g.blocksText t), g)
  | .liveness => .ok (s.print (← g.chartText f t), g)
  | .intervals => .ok (s.print (← g.intervalsText t), g)
  | .interference =>
    let graph := InterferenceGraph.ofFlow g
    let names ← g.names t
    let text := graph.mermaid fun v => names[v]?.getD ""
    .ok ((s.note (Log.ofInterference g graph)).print text, g)

def dumpAll (s : Session) (g : FlowGraph) (f : Function) (t : SymbolTable) :
    List Dump → Except Fault (Session × FlowGraph)
  | [] => .ok (s, g)
  | what :: rest => do
    let (s, g) ← s.dump g f t what
    s.dumpAll g f t rest

/-- Allocate a function and print what was asked for. What was done before a failure stays. -/
def allocate (s : Session) (dumps : List Dump) (t : SymbolTable) (f : Function) :
    Session × Option Failure :=
  let s := s.note (Log.ofBuild f t)
  match FlowGraph.build f t with
  | .error e => (s, some (.allocation f.name e))
  | .ok g =>
    match (s.print ("function " ++ f.name ++ "\n")).dumpAll g f t dumps with
    | .error e => (s, some (.listing e))
    | .ok (s, g) =>
      let s := s.note (Log.ofAllocate s.allocator g t)
      let run := s.allocator.allocate g t
      let s := { s with allocator := run.allocator }
      match run.result with
      | .error e => (s, some (.allocation f.name e))
      | .ok result =>
        match result.text t with
        | .error e => (s, some (.listing e))
        | .ok text => (s.print (text ++ "\n"), none)

def allocateAll (s : Session) (dumps : List Dump) (t : SymbolTable) :
    List Function → Session × Option Failure
  | [] => (s, none)
  | f :: rest =>
    match s.allocate dumps t f with
    | (s, none) => s.allocateAll dumps t rest
    | stopped => stopped

end Session

/-- The pools left by the limits. -/
def Options.pools (o : Options) : Pools where
  general := (o.generalLimit.map fun n => Pools.standard.general.take n).getD Pools.standard.general
  float := (o.floatLimit.map fun n => Pools.standard.float.take n).getD Pools.standard.float

def runInput (path : String) (o : Options) (content : Except Unreadable String) :
    Session × Option Failure :=
  let s : Session := ⟨.new o.pools, "", []⟩
  match content with
  | .error cause => (s, some (.unreadable path cause))
  | .ok text =>
    match Source.readProgram text with
    | .error cause => (s, some (.source path cause))
    | .ok program =>
      match s.allocateAll o.dumps program.symbols program.functions with
      | (s, none) =>
        let summary := "allocated " ++ toString program.functions.length ++ " functions, " ++
          toString s.allocator.totalSpills ++ " variables spilled in total"
        (s.note [⟨.info, .command, summary⟩], none)
      | stopped => stopped

def Output.ofSession (o : Options) (s : Session) (failure : Option Failure) : Output where
  exitCode := if failure.isSome then 1 else 0
  stdout := s.stdout
  stderr := (Log.upTo (.ofVerbosity o.verbosity) s.log).map Log.Entry.line ++
    failure.toList.map fun e => "error: " ++ e.message

def helpText : String :=
  "Graph coloring register allocation for three-address code\n\n" ++
  "Usage: tacra [OPTIONS] <INPUT>\n\n" ++
  "Arguments:\n" ++
  "  <INPUT>  The three-address code module to allocate\n\n" ++
  "Options:\n" ++
  "      --int-regs <N>    Use only the first N general purpose registers\n" ++
  "      --float-regs <N>  Use only the first N floating point registers\n" ++
  "      --dump <WHAT>     Print an intermediate result, may be repeated [possible values: " ++
  "blocks, liveness, intervals, interference]\n" ++
  "  -v...                 Log more, may be repeated\n" ++
  "  -h, --help            Print help\n"

/-- The output of the command line, given what reading its input gave. -/
def Request.output (content : Except Unreadable String) : Request → Output
  | .usageError => ⟨2, "", ["error: unusable arguments, try --help"]⟩
  | .help => ⟨0, helpText, []⟩
  | .run path o =>
    let (s, failure) := runInput path o content
    Output.ofSession o s failure

/-- The output of the command line for its arguments, in a folder. -/
def run (folder : Folder) (args : List String) : Output :=
  let request := Request.ofArgs args
  request.output (match request.input? with
    | some path => folder.read path
    | none => .error .missing)

end RegisterColoring.Command
