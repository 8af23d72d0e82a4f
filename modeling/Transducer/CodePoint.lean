/-!
Code points. A code point is any number below `2 ^ 32`; being a Unicode scalar value is a property
that some of them have and that only matters when one is written as text.
-/

namespace Transducer

/-- Carried as a plain number, so that bounds are facts of arithmetic. -/
abbrev CodePoint := Nat

namespace CodePoint

/-- The largest code point of Unicode. -/
def unicodeMax : CodePoint := 0x10FFFF

/-- The largest number that code points, counts and limits can take. -/
def ceiling : Nat := 4294967295

/-- The character of a code point that is a scalar value. -/
def toChar? (c : CodePoint) : Option Char :=
  if c.isValidChar then some (Char.ofNat c) else none

/-- The character of a code point; U+FFFD stands in for a number that is no scalar value. -/
def toChar (c : CodePoint) : Char :=
  if c.isValidChar then Char.ofNat c else '\uFFFD'

def ofString (s : String) : List CodePoint := s.toList.map Char.toNat

/-- Text of a sequence of code points, character by character. -/
def textOf (cs : List CodePoint) : String := String.ofList (cs.map toChar)

/-- Decimal numbers of a sequence, as `[1, 2, 3]`. -/
def listing (cs : List CodePoint) : String :=
  "[" ++ ", ".intercalate (cs.map (fun c : Nat => toString c)) ++ "]"

end CodePoint

/-- Reads a decimal numeral of at most `CodePoint.ceiling`; leading zeros are allowed, signs are not. -/
def readNumeral? (s : String) : Option Nat :=
  let digits := s.toList
  if digits.isEmpty || !digits.all Char.isDigit then none
  else
    let value := digits.foldl (fun n d => 10 * n + (d.toNat - '0'.toNat)) 0
    if value ≤ CodePoint.ceiling then some value else none

end Transducer
