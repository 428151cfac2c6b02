namespace RegisterColoring.Log

inductive Level
  | warn
  | info
  | debug
  | trace
deriving DecidableEq

/-- The part of a run that a message comes from. -/
inductive Phase
  | flow
  | liveness
  | interference
  | coloring
  | command
deriving DecidableEq

structure Entry where
  level : Level
  phase : Phase
  message : String

namespace Level

def rank : Level → Nat
  | .warn => 0
  | .info => 1
  | .debug => 2
  | .trace => 3

def text : Level → String
  | .warn => "WARN"
  | .info => "INFO"
  | .debug => "DEBUG"
  | .trace => "TRACE"

/-- The least severe level shown for a number of requests for more. -/
def ofVerbosity : Nat → Level
  | 0 => .warn
  | 1 => .info
  | 2 => .debug
  | _ => .trace

end Level

def Phase.path : Phase → String
  | .flow => "tacra::backend::reg_alloc::control_flow_graph"
  | .liveness => "tacra::backend::reg_alloc::liveness_analysis"
  | .interference => "tacra::backend::reg_alloc::interference_graph"
  | .coloring => "tacra::backend::reg_alloc::graph_coloring_allocation"
  | .command => "tacra"

namespace Entry

def text (e : Entry) : String := e.level.text ++ " " ++ e.message

/-- The entry as a line of a log stream. The level takes five columns. -/
def line (e : Entry) : String :=
  let pad := if e.level.text.length < 5 then " " else ""
  "[" ++ e.level.text ++ pad ++ " " ++ e.phase.path ++ "] " ++ e.message

end Entry

def upTo (level : Level) (entries : List Entry) : List Entry :=
  entries.filter fun e => e.level.rank ≤ level.rank

end RegisterColoring.Log
