import Transducer.CodePoint

/-!
Resolving the escapes of a literal. Between quotes a backslash makes the next character stand for itself,
and digits in square brackets are one code point: `[0x41]` in hexadecimal, `[0101]` in octal, `[65]` and
`[0]` in decimal. Everything else stands for itself. The text is read once from left to right, so the error
that is reported belongs to the leftmost malformed escape. Positions are byte offsets.
-/

namespace Transducer.Literal

inductive Base where
  | hexadecimal
  | octal
  | decimal
  deriving DecidableEq, Repr

namespace Base

def radix : Base → Nat
  | .hexadecimal => 16
  | .octal => 8
  | .decimal => 10

def name : Base → String
  | .hexadecimal => "hexadecimal"
  | .octal => "octal"
  | .decimal => "decimal"

end Base

/-- Value of an ASCII digit or letter read as a digit. -/
def digitValue? (c : Char) : Option Nat :=
  if '0' ≤ c ∧ c ≤ '9' then some (c.toNat - 48)
  else if 'a' ≤ c ∧ c ≤ 'z' then some (c.toNat - 87)
  else if 'A' ≤ c ∧ c ≤ 'Z' then some (c.toNat - 55)
  else none

def Base.accepts (b : Base) (c : Char) : Bool :=
  match digitValue? c with
  | some d => d < b.radix
  | none => false

def Base.value (b : Base) (digits : List Char) : Nat :=
  digits.foldl (fun n c => b.radix * n + (digitValue? c).getD 0) 0

/-- Why an escape is malformed. -/
inductive EscapeFault where
  | unterminated
  | empty
  | invalidDigit (base : Base)
  | outOfRange
  | dangling
  deriving DecidableEq, Repr

def EscapeFault.summary : EscapeFault → String
  | .unterminated => "unterminated"
  | .empty => "empty"
  | .invalidDigit base => s!"invalid {base.name} digit"
  | .outOfRange => "out of range"
  | .dangling => "dangling escape"

/-- A malformed escape: the bytes `[start, stop)` of the literal, which read `text`. -/
structure EscapeError where
  fault : EscapeFault
  start : Nat
  stop : Nat
  text : String
  deriving DecidableEq, Repr

def EscapeError.message (e : EscapeError) : String :=
  match e.fault with
  | .unterminated => "`" ++ e.text ++ "` has no closing `]`"
  | .empty => "`[]` has no digits"
  | .invalidDigit base => "`" ++ e.text ++ "` is not a valid " ++ base.name ++ " number"
  | .outOfRange => "`" ++ e.text ++ "` is above U+10FFFF"
  | .dangling => "`\\` at the end of the literal"

/-- The base that the first characters of a numeric escape select, and the digits that are left. -/
def selectBase : List Char → Base × List Char
  | '0' :: 'x' :: body => (.hexadecimal, body)
  | '0' :: 'X' :: body => (.hexadecimal, body)
  | ['0'] => (.decimal, ['0'])
  | '0' :: body => (.octal, body)
  | body => (.decimal, body)

/-- The code point between the brackets of a numeric escape. -/
def numericEscape (digits : List Char) : Except EscapeFault CodePoint :=
  if digits.isEmpty then .error .empty
  else
    let (base, body) := selectBase digits
    if body.isEmpty || !body.all base.accepts then .error (.invalidDigit base)
    else if base.value body ≤ CodePoint.unicodeMax then .ok (base.value body)
    else .error .outOfRange

/-- Where the reader stands: outside escapes, after the backslash at `start`, or inside the bracket opened at
`start` with the digits so far, last one first. -/
inductive Place where
  | plain
  | escape (start : Nat)
  | bracket (start : Nat) (digits : List Char)
  deriving DecidableEq, Repr

/-- Reads on from byte offset `offset`. -/
def unescapeFrom : Place → Nat → List Char → Except EscapeError (List CodePoint)
  | .plain, _, [] => .ok []
  | .escape start, offset, [] => .error ⟨.dangling, start, offset, "\\"⟩
  | .bracket start digits, offset, [] =>
      .error ⟨.unterminated, start, offset, String.ofList ('[' :: digits.reverse)⟩
  | .plain, offset, c :: cs =>
      if c = '\\' then unescapeFrom (.escape offset) (offset + 1) cs
      else if c = '[' then unescapeFrom (.bracket offset []) (offset + 1) cs
      else (unescapeFrom .plain (offset + c.utf8Size) cs).map (c.toNat :: ·)
  | .escape _, offset, c :: cs => (unescapeFrom .plain (offset + c.utf8Size) cs).map (c.toNat :: ·)
  | .bracket start digits, offset, c :: cs =>
      if c = ']' then
        match numericEscape digits.reverse with
        | .ok value => (unescapeFrom .plain (offset + 1) cs).map (value :: ·)
        | .error fault =>
            .error ⟨fault, start, offset + 1, String.ofList ('[' :: digits.reverse ++ [']'])⟩
      else unescapeFrom (.bracket start (c :: digits)) (offset + c.utf8Size) cs

/-- The code points that the raw text of a literal stands for. -/
def unescape (raw : String) : Except EscapeError (List CodePoint) := unescapeFrom .plain 0 raw.toList

end Transducer.Literal
