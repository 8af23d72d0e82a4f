import Transducer.Diagnostic.Picture

/-!
A canvas of character cells on which drawings are made stroke by stroke. A stroke covers what was there, and
whatever lies between strokes is blank. Written out, a row ends with its last painted cell, and neighbouring cells
that are painted alike share their terminal codes.
-/

namespace Transducer

/-- What a cell is painted for. -/
inductive Ink where
  | plain
  | gutter
  | title
  | primary
  | secondary
  | help
  | addition
  deriving DecidableEq, Repr

/-- The terminal codes in front of a run of cells. -/
abbrev Palette := Ink → String

namespace Palette

def plain : Palette := fun _ => ""

/-- The codes that a level is written in. -/
def codesOf : Level → String
  | .error => "\x1b[1m\x1b[91m"
  | .warning => "\x1b[1m\x1b[33m"
  | .help => "\x1b[1m\x1b[96m"

/-- The codes of a picture whose first panel is of some level. -/
def colored (level : Level) : Palette
  | .plain => ""
  | .gutter => "\x1b[1m\x1b[94m"
  | .title => "\x1b[1m"
  | .primary => codesOf level
  | .secondary => "\x1b[1m\x1b[94m"
  | .help => codesOf .help
  | .addition => "\x1b[92m"

end Palette

structure Cell where
  char : Char
  ink : Ink
  deriving DecidableEq, Repr

def Cell.blank : Cell := ⟨' ', .plain⟩

structure Canvas where
  rows : Array (Array Cell)
  deriving DecidableEq, Repr

namespace Canvas

def empty : Canvas := ⟨#[]⟩

def height (c : Canvas) : Nat := c.rows.size

/-- Paints one cell; the canvas grows as far as it has to. -/
def put (c : Canvas) (row column : Nat) (char : Char) (ink : Ink) : Canvas :=
  let rows := c.rows ++ Array.replicate (row + 1 - c.rows.size) #[]
  ⟨rows.modify row fun cells =>
    (cells ++ Array.replicate (column + 1 - cells.size) Cell.blank).setIfInBounds column ⟨char, ink⟩⟩

/-- Paints a text from a column on. -/
def write (c : Canvas) (row column : Nat) (text : List Char) (ink : Ink) : Canvas :=
  (text.foldl (fun (c, column) char => (c.put row column char ink, column + 1)) (c, column)).1

/-- Paints the columns of a row from `first` up to `past`. -/
def fill (c : Canvas) (row first past : Nat) (char : Char) (ink : Ink) : Canvas :=
  c.write row first (List.replicate (past - first) char) ink

/-- Paints a column of the rows from `first` up to `past`. -/
def fillDown (c : Canvas) (first past column : Nat) (char : Char) (ink : Ink) : Canvas :=
  (List.range' first (past - first)).foldl (fun c row => c.put row column char ink) c

/-- What ends a run of cells that was begun with some codes. -/
def resetAfter (codes : String) : List Char := if codes.isEmpty then [] else "\x1b[0m".toList

/-- Cells with their codes, given the codes in force. -/
def painted (p : Palette) : String → List Cell → List Char
  | codes, [] => resetAfter codes
  | codes, cell :: cells =>
      if p cell.ink = codes then cell.char :: painted p codes cells
      else resetAfter codes ++ (p cell.ink).toList ++ cell.char :: painted p (p cell.ink) cells

def text (c : Canvas) (p : Palette) : String :=
  "\n".intercalate (c.rows.toList.map fun cells => String.ofList (painted p "" cells.toList))

end Canvas

end Transducer
