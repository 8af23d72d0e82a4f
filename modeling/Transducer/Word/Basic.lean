import Transducer.CodePoint

/-!
Words over code points, held as views. A word is the stretch `[start, stop)` of a buffer that other words
may view as well, so slicing copies nothing. Everything a word means is its content `Word.toList`; two words
over different buffers with the same content are the same word to every operation. The content hash is
computed at most once: `Word.hash` hands back the word with the result noted in it.
-/

namespace Transducer

structure Word where
  buffer : Array CodePoint
  start : Nat
  stop : Nat
  /-- The content hash, once it has been asked for. -/
  memo : Option Int32

namespace Word

/-- What can go wrong with an index or a range. -/
inductive Error where
  | view (start stop size : Nat)
  | slice (start stop length : Nat)
  | index (i length : Nat)
  | noLength (low high : Nat)
  | noValue (low high : Nat)
  deriving DecidableEq, Repr

def Error.message : Error → String
  | .view start stop size =>
      s!"IntSeq: view {start}..{stop} out of bounds for buffer of length {size}"
  | .slice start stop length =>
      s!"IntSeq::sub_range: {start}..{stop} out of bounds for length {length}"
  | .index i length => s!"index {i} out of bounds for length {length}"
  | .noLength low high => s!"IntSeq::random: empty length range {low}..{high}"
  | .noValue low high => s!"IntSeq::random: empty codepoint range {low}..{high}"

/-- The view `[start, stop)` of a buffer. -/
def ofView (buffer : Array CodePoint) (start stop : Nat) : Except Error Word :=
  if start ≤ stop ∧ stop ≤ buffer.size then .ok ⟨buffer, start, stop, none⟩
  else .error (.view start stop buffer.size)

/-- A word that views the whole of its own buffer. -/
def ofArray (buffer : Array CodePoint) : Word := ⟨buffer, 0, buffer.size, none⟩

def ofList (cs : List CodePoint) : Word := ofArray cs.toArray

def ofString (s : String) : Word := ofList (CodePoint.ofString s)

def empty : Word := ofArray #[]

/-- The content of a word: all that its operations may depend on. -/
def toList (w : Word) : List CodePoint := (w.buffer.extract w.start w.stop).toList

def length (w : Word) : Nat := w.stop - w.start

def isEmpty (w : Word) : Bool := w.start == w.stop

instance : BEq Word := ⟨fun v w => v.toList == w.toList⟩

def get? (w : Word) (i : Nat) : Option CodePoint :=
  if i < w.length then w.buffer[w.start + i]? else none

def get (w : Word) (i : Nat) : Except Error CodePoint :=
  match w.get? i with
  | some c => .ok c
  | none => .error (.index i w.length)

/-- The content from index `i` on. -/
def listFrom (w : Word) (i : Nat) : Except Error (List CodePoint) :=
  if i ≤ w.length then .ok (w.toList.drop i) else .error (.index i w.length)

/-- The part `[i, j)` of a word, as a view of the same buffer. -/
def slice (w : Word) (i j : Nat) : Except Error Word :=
  if i ≤ j ∧ j ≤ w.length then ofView w.buffer (w.start + i) (w.start + j)
  else .error (.slice i j w.length)

/-- The part from index `i` to the end, as a view of the same buffer. -/
def drop (w : Word) (i : Nat) : Except Error Word := w.slice i w.length

/-- Both contents in a buffer of their own. -/
def append (v w : Word) : Word :=
  ofArray (v.buffer.extract v.start v.stop ++ w.buffer.extract w.start w.stop)

instance : Append Word := ⟨append⟩

/-- The same content in a buffer that holds nothing else. -/
def copy (w : Word) : Word := ofArray (w.buffer.extract w.start w.stop)

/-- The hash of a content: `h ↦ 31 * h + c` from `1`, in wrapping signed 32-bit arithmetic. -/
def hashOf (cs : List CodePoint) : Int32 := cs.foldl (fun h c => h * 31 + Int32.ofNat c) 1

/-- The content hash, and the word that remembers it. -/
def hash (w : Word) : Int32 × Word :=
  match w.memo with
  | some h => (h, w)
  | none =>
      let h := hashOf w.toList
      (h, { w with memo := some h })

end Word

end Transducer
