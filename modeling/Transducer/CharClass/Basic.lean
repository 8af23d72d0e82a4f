import Transducer.CodePoint

/-!
Character classes over a bounded alphabet. A class is a list of breakpoints: entry `i` tells for all code
points above entry `i - 1` (or from the alphabet's minimum, for the first) up to and including its own point
whether they are members. A well-formed list ascends and ends at the alphabet's maximum, and it is canonical
if no two neighbours carry the same flag: `['b'-'d']` is `(97, false), (100, true), (0x10FFFF, false)`.
The constructors below make canonical lists; nothing stops a caller from wrapping another one, and every
operation says what it does on any list at all.
-/

namespace Transducer

/-- The code points from `min` to `max`. Bounds in the wrong order are allowed and leave no code point. -/
structure Alphabet where
  min : CodePoint
  max : CodePoint
  deriving DecidableEq, Repr

namespace Alphabet

def unicode : Alphabet := ⟨0, CodePoint.unicodeMax⟩

def holds (a : Alphabet) (c : CodePoint) : Bool := a.min ≤ c && c ≤ a.max

end Alphabet

structure Breakpoint where
  point : CodePoint
  member : Bool
  deriving DecidableEq, Repr

structure CharClass where
  points : List Breakpoint
  deriving DecidableEq, Repr

namespace CharClass

inductive Error where
  /-- The interval does not lie inside the alphabet. -/
  | outside (low high : CodePoint) (alphabet : Alphabet)
  /-- A combined list does not end at the alphabet's maximum. -/
  | openEnded
  /-- The code point has no neighbour on the side asked for. -/
  | noNeighbour (c : CodePoint)
  deriving DecidableEq, Repr

def Error.message : Error → String
  | .outside low high a => s!"Alphabet: interval {low}..={high} outside {a.min}..={a.max}"
  | .openEnded => "Ranges: breakpoint list must terminate at the alphabet maximum"
  | .noNeighbour c => s!"code point {c} has no neighbour"

def successor (c : CodePoint) : Except Error CodePoint :=
  if c < CodePoint.ceiling then .ok (c + 1) else .error (.noNeighbour c)

def predecessor (c : CodePoint) : Except Error CodePoint :=
  if 0 < c then .ok (c - 1) else .error (.noNeighbour c)

def empty (a : Alphabet) : CharClass := ⟨[⟨a.max, false⟩]⟩

/-- The code points `low` to `high`, both included. -/
def interval (a : Alphabet) (low high : CodePoint) : Except Error CharClass :=
  if a.min ≤ low ∧ low ≤ high ∧ high ≤ a.max then do
    let below ← if a.min < low then (predecessor low).map fun p => [⟨p, false⟩] else .ok []
    let above := if high < a.max then [⟨a.max, false⟩] else []
    .ok ⟨below ++ ⟨high, true⟩ :: above⟩
  else .error (.outside low high a)

def singleton (a : Alphabet) (c : CodePoint) : Except Error CharClass := interval a c c

/-- Halves the stretch of `size` entries from `base` until one is left; the answer is the first index at or
after it whose point reaches `c`. -/
def search (points : List Breakpoint) (c : CodePoint) (base size : Nat) : Nat :=
  if h : 1 < size then
    let half := size / 2
    if reaches (base + half) then search points c base (size - half)
    else search points c (base + half) (size - half)
  else if reaches base then base else base + 1
termination_by size
decreasing_by all_goals omega
where
  reaches (i : Nat) : Bool :=
    match points[i]? with
    | some p => c ≤ p.point
    | none => true

/-- Membership: the flag of the first breakpoint that reaches `c`, found by halving. -/
def contains (k : CharClass) (c : CodePoint) : Bool :=
  match k.points[search k.points c 0 k.points.length]? with
  | some p => p.member
  | none => false

def isEmpty (k : CharClass) : Bool := k.points.all fun p => !p.member

/-- The number of member entries, which is the number of member runs of a canonical list. -/
def memberRunCount (k : CharClass) : Nat := k.points.countP fun p => p.member

/-- No two neighbours carry the same flag. -/
def isCanonical (k : CharClass) : Bool := alternates k.points
where
  alternates : List Breakpoint → Bool
    | p :: q :: rest => p.member != q.member && alternates (q :: rest)
    | _ => true

end CharClass

end Transducer
