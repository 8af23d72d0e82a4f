import Transducer.Diagnostic.Basic

/-!
Removing the consequences of other diagnostics. One diagnostic hides another of lower priority that starts
inside its cascade span. Of two that start at the same place, a missing token hides an unclosed delimiter, and
otherwise the one of higher priority hides the other. The list is swept once from its head; what is hidden
already hides nothing itself.
-/

namespace Transducer.Diagnostic

/-- The first span starts before the second and reaches its end. -/
def reaches (outer inner : Span) : Bool := outer.start < inner.start && inner.stop ≤ outer.stop

def hides (a b : Diagnostic) : Bool :=
  (reaches a.cascade b.span && a.issue.outranks b.issue) ||
    (a.span.start == b.span.start &&
      ((a.issue.isRootCause && b.issue.isStructural) ||
        (!(a.issue.isStructural && b.issue.isRootCause) && a.issue.outranks b.issue)))

/-- A diagnostic with a mark that tells whether it is hidden. -/
abbrev Marked := Diagnostic × Bool

/-- Marks what `a` hides. -/
def markHidden (a : Diagnostic) (ms : List Marked) : List Marked :=
  ms.map fun m => (m.1, m.2 || hides a m.1)

/-- Lets every diagnostic of the second list that is not hidden when its turn comes hide others. The first list
holds those that had their turn, last one first. -/
def sweep : List Marked → List Marked → List Marked
  | before, [] => before.reverse
  | before, (a, true) :: after => sweep ((a, true) :: before) after
  | before, (a, false) :: after =>
      sweep ((a, false) :: markHidden a before) (markHidden a after)
termination_by _ after => after.length
decreasing_by all_goals simp [markHidden]

/-- The diagnostics that are not hidden, in their order. -/
def filtered (ds : List Diagnostic) : List Diagnostic :=
  ((sweep [] (ds.map fun d => (d, false))).filter fun m => !m.2).map Prod.fst

end Transducer.Diagnostic
