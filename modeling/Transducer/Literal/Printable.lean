import Transducer.CodePoint

/-!
Which code points may stand between quotes. The six white characters with a meaning of their own always
may; otherwise a code point has to be a scalar value, no control character, outside the block of specials,
and inside some block of Unicode.
-/

namespace Transducer.Literal

/-- Inclusive ranges that lie outside every block of Unicode, in ascending order. -/
def unallocated : List (CodePoint × CodePoint) :=
  [(0x2FE0, 0x2FEF), (0x10200, 0x1027F), (0x103E0, 0x103FF), (0x10780, 0x107FF), (0x11E00, 0x11EDF),
    (0x12550, 0x12F8F), (0x13440, 0x143FF), (0x14680, 0x167FF), (0x1BCB0, 0x1CFFF), (0x1FC00, 0x1FFFF),
    (0x2A6E0, 0x2A6FF), (0x2EBF0, 0x2F7FF), (0x2FA20, 0x2FFFF), (0x31350, 0xDFFFF), (0xE0080, 0xE00FF),
    (0xE01F0, 0xEFFFF)]

def isUnallocated (c : CodePoint) : Bool := unallocated.any fun r => r.1 ≤ c && c ≤ r.2

/-- The block of specials, U+FFF0 to U+FFFF. -/
def isSpecial (c : CodePoint) : Bool := 0xFFF0 ≤ c && c ≤ 0xFFFF

/-- The two blocks of control characters, with U+007F between them. -/
def isControl (c : CodePoint) : Bool := c ≤ 0x1F || (0x7F ≤ c && c ≤ 0x9F)

/-- NUL, backspace, tab, line feed, carriage return and blank. -/
def isPlainWhite (c : CodePoint) : Bool :=
  c == 0 || c == 0x08 || c == 0x09 || c == 0x0A || c == 0x0D || c == 0x20

def isPrintable (c : CodePoint) : Bool :=
  isPlainWhite c ||
    (decide c.isValidChar && !isControl c && !isSpecial c && !isUnallocated c)

end Transducer.Literal
