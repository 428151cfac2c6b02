import RegisterColoring.Command.Run

namespace RegisterColoring.Command

/-- Whether a system error has a number, which some calls report negated. -/
def hasNumber (code number : UInt32) : Bool := code == number || code == -number

def readInput (path : String) : IO (Except Unreadable String) := do
  try
    return Folder.textOf (← IO.FS.readBinFile path)
  catch e =>
    match e with
    | .noFileOrDirectory .. => return .error .missing
    | .inappropriateType _ code _ =>
      return .error (if hasNumber code 21 then .directory else .notADirectory)
    | .invalidArgument _ code _ =>
      return .error (if hasNumber code 36 then .nameTooLong else .other (toString e))
    | e => return .error (.other (toString e))

end RegisterColoring.Command

open RegisterColoring.Command in
/-- Allocate the registers of every function in the input. -/
def main (args : List String) : IO UInt32 := do
  let request := Request.ofArgs args
  let content ← match request.input? with
    | some path => readInput path
    | none => pure (.error .missing)
  let output := request.output content
  IO.print output.stdout
  for line in output.stderr do
    IO.eprintln line
  return UInt32.ofNat output.exitCode
