import Transducer.Command.Outcome

/-! The program: reads the source that the command line names and prints the answer. -/

namespace Transducer

/-- The reason of a failed read, in the words of the operating system. -/
def readFailure : IO.Error → String
  | .noFileOrDirectory .. => "No such file or directory (os error 2)"
  | .inappropriateType .. => "Is a directory (os error 21)"
  | e => e.toString

def loadSource (input : Invocation.Input) : IO (Except String String) := do
  try
    match input with
    | .text source => return .ok source
    | .stdin => return .ok (← (← IO.getStdin).readToEnd)
    | .file path => return .ok (← IO.FS.readFile path)
    | .nothing => return .error Invocation.Input.required
  catch e => return .error (input.unreadable (readFailure e))

def answer (args : List String) : IO Outcome := do
  match Invocation.ofArguments? args with
  | none => return .usage
  | some i =>
      let loaded ← loadSource i.input
      return i.outcome .standard (← (← IO.getStderr).isTty) loaded

end Transducer

def main (args : List String) : IO UInt32 := do
  let outcome ← Transducer.answer args
  IO.print outcome.stdout
  IO.eprint outcome.stderr
  return outcome.code.toUInt32
