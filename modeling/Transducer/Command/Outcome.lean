import Transducer.Command.Invocation
import Transducer.Diagnostic.Report
import Transducer.Diagnostic.Snippet
import Transducer.Program.Compilation

/-!
What a command answers: an exit code and the texts for both outputs, as functions of the source. Diagnostics are
reported without their consequences; code 1 means that the source could not be read or has errors, code 2 that the
command line is wrong, and code 101 that the program broke down.

How diagnostics are drawn and how a program is written as JSON is no business of the commands. Both are taken from a
backend, and both may fail: without a drawing nothing is answered at all, and without the JSON text the failure is
reported like one of the source.
-/

namespace Transducer

structure Outcome where
  code : Nat
  stdout : String
  stderr : String
  deriving DecidableEq, Repr

/-- What the commands leave to others. -/
structure Backend where
  draw : Drawing
  serialize : Program → Except String String

/-- The drawings and the JSON texts of this library. -/
def Backend.standard : Backend := ⟨Snippet.render, fun p => .ok p.toJson.pretty⟩

namespace Outcome

def failed (message : String) : Outcome := ⟨1, "", s!"error: {message}\n"⟩

/-- The answer of a program that broke down. -/
def crashed : Outcome := ⟨101, "", "internal fault\n"⟩

/-- The answer to a command line without invocation. -/
def usage : Outcome := ⟨2, "", "usage: compile|check|dump [options] FILE|-|-e TEXT\n"⟩

end Outcome

namespace Invocation

namespace Input

/-- How a source is called in reports. -/
def name : Input → String
  | .text _ => "<expr>"
  | .stdin => "<stdin>"
  | .file path => path
  | .nothing => "<none>"

/-- The message about a source that could not be read. -/
def unreadable (input : Input) (reason : String) : String :=
  match input with
  | .stdin => s!"failed to read stdin: {reason}"
  | input => s!"failed to read '{input.name}': {reason}"

def required : String := "grammar is required: use a positional FILE, `-` for stdin, or -e/--expr"

end Input

/-- The report on a source, with its line end; empty if there is nothing to report. -/
def reportOn (b : Backend) (i : Invocation) (terminal : Bool) (c : Compilation) : Option String :=
  match Diagnostic.filtered c.diagnostics with
  | [] => some ""
  | ds => (Diagnostic.report b.draw ⟨some c.source, some i.input.name, i.isColored terminal, true⟩ ds).map (· ++ "\n")

def compileOutcome (c : Compilation) (report : String) : Outcome :=
  if c.isValid then ⟨0, c.program.text, report⟩ else ⟨1, "", report⟩

/-- The tree exists for broken sources too; the table does not. -/
def dumpOutcome (b : Backend) (i : Invocation) (c : Compilation) (report : String) : Outcome :=
  if i.has .cst then ⟨0, c.dumpTree ⟨i.has .raw, i.has .spans⟩, report⟩
  else if !c.isValid then ⟨1, "", report⟩
  else if i.has .json then
    match b.serialize c.program with
    | .ok json => ⟨0, json ++ "\n", report⟩
    | .error reason => ⟨1, "", report ++ s!"error: {reason}\n"⟩
  else ⟨0, c.program.symbols, report⟩

/-- What a check asks of a compilation. Warnings are errors to a strict one. -/
def accepts (i : Invocation) (c : Compilation) : Bool :=
  if i.has .strict then c.diagnostics.isEmpty else c.isValid

def options (i : Invocation) : Options :=
  { Options.standard with limits := { Options.standard.limits with tokens := some i.tokenLimit } }

/-- The answer for a source that was compiled. A check that succeeds reports nothing. -/
def outcomeFor (b : Backend) (i : Invocation) (terminal : Bool) (c : Compilation) : Outcome :=
  let reporting (answer : String → Outcome) := ((i.reportOn b terminal c).map answer).getD .crashed
  match i.command with
  | .compile => reporting (compileOutcome c)
  | .check => if i.accepts c then ⟨0, "", ""⟩ else reporting fun report => ⟨1, "", report⟩
  | .dump => reporting (i.dumpOutcome b c)

/-- The answer for a source that was read. -/
def outcomeOf (b : Backend) (i : Invocation) (terminal : Bool) (source : String) : Outcome :=
  match compile i.options source with
  | .error (.limit e) => .failed e.message
  | .error (.fault _) => .crashed
  | .ok c => i.outcomeFor b terminal c

/-- The answer once the source was read, or the reason why it could not be. -/
def outcome (b : Backend) (i : Invocation) (terminal : Bool) (loaded : Except String String) : Outcome :=
  match loaded with
  | .ok source => i.outcomeOf b terminal source
  | .error message => .failed message

end Invocation

end Transducer
