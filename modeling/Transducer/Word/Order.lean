import Transducer.Word.Basic

/-!
Orders on words and the searches that go with them: lexicographic and shortlex order, the longest common
beginning, prefix tests and positions of a code point.
-/

namespace Transducer.Word

/-- Lexicographic order of the contents; a proper beginning comes first. -/
def lexCompare (v w : Word) : Ordering := compare v.toList w.toList

/-- Shorter words first, lexicographic order among words of one length. -/
def shortlexCompare (v w : Word) : Ordering :=
  (compare v.length w.length).then (compare v.toList w.toList)

/-- Length of the longest common beginning. -/
def commonLength (v w : Word) : Nat :=
  ((v.toList.zip w.toList).takeWhile fun p => p.1 == p.2).length

/-- Whether `v` is no longer than `w` and agrees with it from index `offset` on. It is a prefix test for
callers who already know that the two agree below `offset`. -/
def agreesFrom (offset : Nat) (v w : Word) : Bool :=
  v.length ≤ w.length &&
    (List.range' offset (v.length - offset)).all fun i => v.get? i == w.get? i

def indexOf? (w : Word) (c : CodePoint) : Option Nat := w.toList.findIdx? (· == c)

def lastIndexOf? (w : Word) (c : CodePoint) : Option Nat :=
  (w.toList.reverse.findIdx? (· == c)).map fun i => w.length - 1 - i

def contains (w : Word) (c : CodePoint) : Bool := (w.indexOf? c).isSome

def sort (ws : List Word) : List Word := ws.mergeSort fun v w => (lexCompare v w).isLE

/-- Words of equal content keep their order. -/
def sortShortlex (ws : List Word) : List Word := ws.mergeSort fun v w => (shortlexCompare v w).isLE

/-- The number of different contents. -/
def distinctCount (ws : List Word) : Nat := (ws.map toList).eraseDups.length

end Transducer.Word
