import Transducer.Diagnostic.Picture

/-!
Reports on a list of diagnostics: one line or one drawing for each, and possibly a line that counts them. There is no
report if a drawing fails.
-/

namespace Transducer.Diagnostic

/-- Without a source every diagnostic is one line. -/
structure ReportStyle where
  source : Option String
  path : Option String
  colored : Bool
  summary : Bool

def ReportStyle.lines : ReportStyle := ⟨none, none, false, false⟩

def counted (n : Nat) (noun : String) : String := if n = 1 then s!"1 {noun}" else s!"{n} {noun}s"

/-- The numbers of errors and warnings, if there are any. -/
def summaryLine? (ds : List Diagnostic) : Option String :=
  match errorCount ds, warningCount ds with
  | 0, 0 => none
  | errors, 0 => some (counted errors "error")
  | 0, warnings => some (counted warnings "warning")
  | errors, warnings => some (counted errors "error" ++ ", " ++ counted warnings "warning")

/-- The diagnostics of a report, each as a line or as a drawing. -/
def entries (draw : Drawing) (style : ReportStyle) (ds : List Diagnostic) : Option (List String) :=
  match style.source with
  | none => some (ds.map line)
  | some source => ds.mapM fun d => draw style.colored (d.panels source style.path)

/-- Entries on lines of their own, and the line that counts them. -/
def joined (style : ReportStyle) (ds : List Diagnostic) (entries : List String) : String :=
  let text := "\n".intercalate entries
  match if style.summary then summaryLine? ds else none with
  | some line => text ++ "\n" ++ line
  | none => text

def report (draw : Drawing) (style : ReportStyle) (ds : List Diagnostic) : Option String :=
  (entries draw style ds).map (joined style ds)

end Transducer.Diagnostic
