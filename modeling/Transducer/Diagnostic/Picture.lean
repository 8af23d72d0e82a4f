import Transducer.Diagnostic.Basic

/-!
What is shown of a diagnostic. A picture is made of panels: each has a title of some level, and shows a part of the
source. The first panel marks the span of the diagnostic and its related places, and a second one previews a fix. How
panels are drawn is left open here: a drawing makes a text of them, in color or without, or fails.
-/

namespace Transducer

inductive Level where
  | error
  | warning
  | help
  deriving DecidableEq, Repr

def Level.name : Level → String
  | .error => "error"
  | .warning => "warning"
  | .help => "help"

def Severity.level : Severity → Level
  | .error => .error
  | .warning => .warning

/-- What a span is marked for. -/
inductive Role where
  | primary
  | related
  deriving DecidableEq, Repr

/-- A span to be marked. -/
structure Annotation where
  span : Span
  role : Role
  label : String
  deriving DecidableEq, Repr

/-- What a panel shows of its source. -/
inductive Exhibit where
  | marks (path : Option String) (annotations : List Annotation)
  /-- The source with a span replaced. -/
  | patch (span : Span) (replacement : String)
  deriving DecidableEq, Repr

structure Panel where
  level : Level
  title : String
  source : String
  exhibit : Exhibit
  deriving DecidableEq, Repr

/-- The spans that a panel shows. -/
def Panel.spans (p : Panel) : List Span :=
  match p.exhibit with
  | .marks _ annotations => annotations.map Annotation.span
  | .patch span _ => [span]

/-- A way to draw panels, given whether it is in color. -/
abbrev Drawing := Bool → List Panel → Option String

namespace Diagnostic

/-- A span that can be seen: an empty one is widened by a byte, if there is one. -/
def visible (source : String) (span : Span) : Span :=
  if span.start < span.stop then span else ⟨span.start, min (span.start + 1) source.utf8ByteSize⟩

/-- The message, as the title and at the span. -/
def mainPanel (source : String) (path : Option String) (d : Diagnostic) : Panel where
  level := d.severity.level
  title := d.message
  source := source
  exhibit := .marks path <|
    ⟨visible source d.span, .primary, d.message⟩ ::
      d.related.map fun r => ⟨visible source r.span, .related, r.message⟩

def fixPanel (source : String) (span : Span) (fix : Fix) : Panel where
  level := .help
  title := fix.description
  source := source
  exhibit := .patch span fix.replacement

def panels (source : String) (path : Option String) (d : Diagnostic) : List Panel :=
  d.mainPanel source path :: d.fix.toList.map (fixPanel source d.span)

end Diagnostic

end Transducer
