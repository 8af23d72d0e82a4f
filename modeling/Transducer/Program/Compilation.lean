import Transducer.Diagnostic.Cascade
import Transducer.Parse.Run
import Transducer.Program.Basic
import Transducer.Program.Builder
import Transducer.Tree.Dump

/-!
Compiling a source: it is parsed within limits and its statements are built into a program. A program exists
even if the source has errors; the diagnostics tell.
-/

namespace Transducer

structure Options where
  limits : Limits
  alphabet : Alphabet

/-- A million tokens and 4096 nested expressions, over all of Unicode. -/
def Options.standard : Options := ⟨⟨some 1000000, some 4096⟩, .unicode⟩

structure Compilation where
  source : String
  root : Tree
  program : Program
  consumed : Nat
  parseDiagnostics : List Diagnostic
  buildDiagnostics : List Diagnostic

/-- Compiles a source. Only limits make it fail. -/
def compile (options : Options) (source : String) : Except Parse.Failure Compilation := do
  let parsed ← parse options.limits source
  let built ← (Builder.run options.alphabet (Stmt.ofRoot parsed.root)).mapError .fault
  return {
    source
    root := parsed.root
    program := ⟨built.table, options.alphabet⟩
    consumed := parsed.consumed
    parseDiagnostics := parsed.diagnostics
    buildDiagnostics := built.diagnostics.reverse }

namespace Compilation

/-- All diagnostics, those of the parser first. -/
def diagnostics (c : Compilation) : List Diagnostic := c.parseDiagnostics ++ c.buildDiagnostics

/-- There is no error; warnings are allowed. -/
def isValid (c : Compilation) : Bool :=
  !Diagnostic.hasErrors c.parseDiagnostics && !Diagnostic.hasErrors c.buildDiagnostics

/-- The message of a source that is refused because of its errors. -/
def refusal (c : Compilation) : String :=
  s!"compilation failed with {Diagnostic.errorCount c.diagnostics} errors"

/-- The program of a source without errors, or why there is none. -/
def toProgram (c : Compilation) : Except String Program :=
  if c.isValid then .ok c.program else .error c.refusal

def dumpTree (c : Compilation) (style : Tree.DumpStyle) : String := c.root.locate.dump style

end Compilation

end Transducer
