import Transducer.CharClass.Basic

/-!
The runs of a class: inclusive intervals of uniform membership, from the alphabet's minimum on. A run starts
right after the point before it, and only points below the maximum are followed by another run, so the step
to the next code point never leaves the range of code points.
-/

namespace Transducer.CharClass

structure Run where
  low : CodePoint
  high : CodePoint
  member : Bool
  deriving DecidableEq, Repr

def runsFrom (a : Alphabet) : CodePoint → List Breakpoint → List Run
  | _, [] => []
  | low, p :: ps =>
      ⟨low, p.point, p.member⟩ :: if p.point < a.max then runsFrom a (p.point + 1) ps else []

/-- All runs, members and gaps alike. -/
def runs (a : Alphabet) (k : CharClass) : List Run := runsFrom a a.min k.points

def memberRuns (a : Alphabet) (k : CharClass) : List Run := (k.runs a).filter fun r => r.member

end Transducer.CharClass
