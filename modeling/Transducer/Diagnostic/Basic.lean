import Transducer.Diagnostic.Issue
import Transducer.Token.Basic

/-!
Diagnostics: an issue with the span it is about, the span in which it may have caused others, a message, and
possibly a fix and related places. A list of diagnostics is in the order in which they were found.
-/

namespace Transducer

/-- A proposed replacement for the span of a diagnostic. -/
structure Fix where
  description : String
  replacement : String
  deriving DecidableEq, Repr

/-- A second place that explains a diagnostic. -/
structure Related where
  message : String
  span : Span
  deriving DecidableEq, Repr

def Related.text (r : Related) : String := s!" (related: {r.message} at {r.span.text})"

structure Diagnostic where
  issue : Issue
  span : Span
  /-- Diagnostics that start inside this span may be hidden as consequences of this one. -/
  cascade : Span
  message : String
  fix : Option Fix
  related : List Related
  deriving DecidableEq, Repr

namespace Diagnostic

/-- A diagnostic that has an issue and a span only. -/
def ofIssue (issue : Issue) (span : Span) : Diagnostic := ⟨issue, span, span, issue.headline, none, []⟩

/-- A diagnostic whose message names a detail. -/
def withDetail (issue : Issue) (span : Span) (detail : String) : Diagnostic :=
  { ofIssue issue span with message := issue.message (some detail) }

def severity (d : Diagnostic) : Severity := d.issue.severity

def isError (d : Diagnostic) : Bool := d.severity == .error

def isWarning (d : Diagnostic) : Bool := d.severity == .warning

/-- The diagnostic in one line. -/
def line (d : Diagnostic) : String :=
  let fix := match d.fix with
    | some f => s!" (fix: {f.description})"
    | none => ""
  s!"{d.severity.name} at {d.span.text}: {d.message}" ++ fix ++ String.join (d.related.map Related.text)

def errorCount (ds : List Diagnostic) : Nat := ds.countP isError

def warningCount (ds : List Diagnostic) : Nat := ds.countP isWarning

def hasErrors (ds : List Diagnostic) : Bool := ds.any isError

def hasWarnings (ds : List Diagnostic) : Bool := ds.any isWarning

end Diagnostic

end Transducer
