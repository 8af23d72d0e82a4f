import Transducer.Token.Kind

/-!
Tokens and spans. A token is a kind and the text it covers; where it stands follows from the tokens before it,
so a list of tokens has spans only once it is laid out from an offset. Offsets count bytes of UTF-8. They are numbers
without a bound, which is faithful for sources below 4 GiB: there every offset fits into 32 bits.
-/

namespace Transducer

/-- The bytes `[start, stop)` of a source. -/
structure Span where
  start : Nat
  stop : Nat
  deriving DecidableEq, Repr

namespace Span

def point (offset : Nat) : Span := ⟨offset, offset⟩

def text (s : Span) : String := s!"{s.start}..{s.stop}"

end Span

structure Token where
  kind : Kind
  text : String
  deriving DecidableEq, Repr

namespace Token

def width (t : Token) : Nat := t.text.utf8ByteSize

def isTrivia (t : Token) : Bool := t.kind.isTrivia

/-- Tokens with their spans, the first one starting at `offset`. -/
def placed (offset : Nat) : List Token → List (Token × Span)
  | [] => []
  | t :: ts => (t, ⟨offset, offset + t.width⟩) :: placed (offset + t.width) ts

/-- The bytes that some tokens cover together. -/
def totalWidth (ts : List Token) : Nat := ts.foldl (fun n t => n + t.width) 0

end Token

end Transducer
