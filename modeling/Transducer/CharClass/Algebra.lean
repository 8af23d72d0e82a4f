import Transducer.CharClass.Basic

/-!
Boolean algebra on classes. Two lists are merged point by point under a combinator and the result is brought
into canonical form; it has to end at the alphabet's maximum.
-/

namespace Transducer.CharClass

/-- One entry of the left list against the right list. `next` merges what follows the entry on the left. -/
def mergeEntry (f : Bool → Bool → Bool) (p : Breakpoint) (next : List Breakpoint → List Breakpoint) :
    List Breakpoint → List Breakpoint
  | [] => []
  | q :: qs =>
      if p.point < q.point then ⟨p.point, f p.member q.member⟩ :: next (q :: qs)
      else if q.point < p.point then ⟨q.point, f p.member q.member⟩ :: mergeEntry f p next qs
      else ⟨p.point, f p.member q.member⟩ :: next qs

/-- Every point of either list becomes a boundary with the combined flag, up to the end of the list that ends
first. Neighbours may carry the same flag. -/
def merge (f : Bool → Bool → Bool) : List Breakpoint → List Breakpoint → List Breakpoint
  | [], _ => []
  | p :: ps, qs => mergeEntry f p (merge f ps) qs

/-- Keeps the last entry of every stretch of equal flags. -/
def collapse : List Breakpoint → List Breakpoint
  | p :: q :: rest => if p.member = q.member then collapse (q :: rest) else p :: collapse (q :: rest)
  | points => points

def combine (a : Alphabet) (f : Bool → Bool → Bool) (k l : CharClass) : Except Error CharClass :=
  let points := collapse (merge f k.points l.points)
  if points.getLast?.map (·.point) = some a.max then .ok ⟨points⟩ else .error .openEnded

def union (a : Alphabet) (k l : CharClass) : Except Error CharClass := combine a (fun x y => x || y) k l

def difference (a : Alphabet) (k l : CharClass) : Except Error CharClass :=
  combine a (fun x y => x && !y) k l

/-- The union of some intervals. -/
def ofIntervals (a : Alphabet) (intervals : List (CodePoint × CodePoint)) : Except Error CharClass :=
  intervals.foldlM (fun k r => do union a k (← interval a r.1 r.2)) (empty a)

end Transducer.CharClass
