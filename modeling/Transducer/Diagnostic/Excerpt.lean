import Transducer.Diagnostic.Picture

/-!
Excerpts of a source: which of its lines a drawing shows, and what is marked on them. Lines end at line feeds, and
there is no line behind the last one, so the end of a source belongs to its last line. A mark lies on one line; a
span over several lines opens on its first, closes on its last, and runs through those between that are shown.
-/

namespace Transducer.Excerpt

structure SourceLine where
  number : Nat
  /-- The characters without the line end. -/
  text : List Char
  /-- The offset of the first character. -/
  start : Nat
  /-- The offset behind the line end. -/
  stop : Nat

def bytesOf (cs : List Char) : Nat := cs.foldr (fun c n => c.utf8Size + n) 0

/-- Puts a character to the lines of a text, the last line apart and backwards. -/
def addChar (lines : Array SourceLine × List Char × Nat) (c : Char) : Array SourceLine × List Char × Nat :=
  let (done, line, start) := lines
  if c = '\n' then
    let text := match line with
      | '\r' :: cs => cs.reverse
      | cs => cs.reverse
    let stop := start + bytesOf line + 1
    (done.push ⟨done.size + 1, text, start, stop⟩, [], stop)
  else (done, c :: line, start)

/-- The lines of a source, of which there is always one. -/
def linesOf (source : String) : List SourceLine :=
  let (done, line, start) := source.toList.foldl addChar (#[], [], 0)
  let last : SourceLine := ⟨done.size + 1, line.reverse, start, start + bytesOf line⟩
  if line.isEmpty && !done.isEmpty then done.toList else done.toList ++ [last]

/-- How many columns a character takes. -/
def widthOf (c : Char) : Nat := if c = '\t' then 4 else 1

def columnsOf (cs : List Char) : Nat := cs.foldl (fun n c => n + widthOf c) 0

/-- A character as it is shown: tabs are four blanks, and control characters have pictures. -/
def shownChar (c : Char) : List Char :=
  if c = '\t' then [' ', ' ', ' ', ' ']
  else if c.toNat < 0x20 then [Char.ofNat (0x2400 + c.toNat)]
  else if c.toNat = 0x7F then ['\u2421']
  else [c]

/-- A text on one line. -/
def shownText (s : String) : String := String.ofList (s.toList.flatMap shownChar)

def SourceLine.shown (l : SourceLine) : List Char := l.text.flatMap shownChar

/-- A source with its lines. -/
structure Source where
  text : String
  lines : List SourceLine

def Source.ofString (text : String) : Source := ⟨text, linesOf text⟩

/-- The characters that start before a byte offset. -/
def takeBytes : Nat → List Char → List Char
  | 0, _ => []
  | _, [] => []
  | n, c :: cs => c :: takeBytes (n - c.utf8Size) cs

/-- The characters from a byte offset on. -/
def dropBytes : Nat → List Char → List Char
  | 0, cs => cs
  | _, [] => []
  | n, c :: cs => dropBytes (n - c.utf8Size) cs

/-- Whether an offset does not lie inside a character. -/
def Source.isBetween (s : Source) (offset : Nat) : Bool := bytesOf (takeBytes offset s.text.toList) ≤ offset

def Source.slice (s : Source) (span : Span) : List Char :=
  takeBytes (span.stop - span.start) (dropBytes span.start s.text.toList)

/-- A place on a line: how many characters and how many columns are in front of it. -/
structure Place where
  line : Nat
  char : Nat
  column : Nat
  deriving DecidableEq, Repr

/-- The line of an offset. -/
def lineAt (lines : List SourceLine) (offset : Nat) : SourceLine :=
  match lines.find? fun l => l.start ≤ offset && offset < l.stop with
  | some l => l
  | none => lines.getLast?.getD ⟨1, [], 0, 0⟩

/-- The number of the line of an offset; behind a last line that has an end, it is the next one. -/
def Source.lineNumber (s : Source) (offset : Nat) : Nat :=
  let l := lineAt s.lines offset
  if l.stop ≤ offset && l.start + bytesOf l.text < l.stop then l.number + 1 else l.number

/-- Where a span starts. A place in or behind the line end counts as one character more than the text. -/
def startPlace (lines : List SourceLine) (offset : Nat) : Place :=
  let l := lineAt lines offset
  let front := takeBytes (offset - l.start) l.text
  let extra := if bytesOf l.text < offset - l.start then 1 else 0
  ⟨l.number, front.length + extra, columnsOf front⟩

/-- Where a span that starts at some place stops. -/
def stopPlace (lines : List SourceLine) (start : Place) (offset : Nat) : Place :=
  let l := lineAt lines offset
  let front := takeBytes (offset - l.start) l.text
  let extra := if l.number ≠ start.line ∧ bytesOf l.text < offset - l.start then 1 else 0
  ⟨l.number, front.length + extra, columnsOf front + extra⟩

def places (lines : List SourceLine) (span : Span) : Place × Place :=
  let start := startPlace lines span.start
  (start, if span.start = span.stop then start else stopPlace lines start span.stop)

/-- What a mark is of the span that it belongs to; spans over several lines have a rail left of the code. -/
inductive Extent where
  | whole
  | opening (rail : Nat)
  | through (rail : Nat)
  | closing (rail : Nat)
  deriving DecidableEq, Repr

/-- Columns of a line, from `first` up to `past`. -/
structure Mark where
  first : Nat
  past : Nat
  role : Role
  label : String
  extent : Extent
  deriving DecidableEq, Repr

namespace Mark

def hasLabel (m : Mark) : Bool := !m.label.isEmpty

/-- Whether a rail starts or ends at the mark. -/
def turns (m : Mark) : Bool :=
  match m.extent with
  | .opening _ | .closing _ => true
  | _ => false

def isThrough (m : Mark) : Bool :=
  match m.extent with
  | .through _ => true
  | _ => false

def isOpening (m : Mark) : Bool :=
  match m.extent with
  | .opening _ => true
  | _ => false

def isPrimary (m : Mark) : Bool := m.role == .primary

def width (m : Mark) : Nat := m.past - m.first

/-- Whether two marks share columns, the second widened to the right. -/
def overlaps (m other : Mark) (padding : Nat) : Bool :=
  (m.first ≤ other.first && other.first < m.past) ||
    (other.first ≤ m.first && m.first < other.past + padding)

end Mark

/-- A mark and the number of its line. -/
abbrev Marking := Nat × Mark

/-- Lines that hold no more than a delimiter are not worth showing. -/
def isBare (l : SourceLine) : Bool :=
  match l.text.filter (!·.isWhitespace) with
  | [] => true
  | [c] => "{}()[]".toList.contains c
  | _ => false

/-- The lines inside a span that are shown: a few at its start, and the one in front of its last. -/
def throughLines (lines : List SourceLine) (first last : Nat) : List Nat :=
  let middle := min (first + 4) last
  let worth (number : Nat) : Bool := lines.any fun l => l.number == number && !isBare l
  let stop := (((List.range' first (middle - first)).filter worth).getLast?.map (· + 1)).getD first
  let near := List.range' (first + 1) (stop - (first + 1))
  if middle < last - 1 && worth (last - 1) then near ++ [last - 1] else near

/-- The marks of a span on one line; at least one column is marked. -/
def wholeMark (a : Annotation) (start stop : Place) : Marking :=
  (start.line, ⟨start.column, max (start.column + 1) stop.column, a.role, a.label, .whole⟩)

/-- The marks of a span over several lines. -/
def railMarks (lines : List SourceLine) (rail : Nat) (a : Annotation) (start stop : Place) : List Marking :=
  (start.line, ⟨start.column, start.column + 1, a.role, "", .opening rail⟩) ::
    (throughLines lines start.line stop.line).map (fun n => (n, ⟨0, 0, a.role, "", .through rail⟩)) ++
    [(stop.line, ⟨stop.column - 1, stop.column, a.role, a.label, .closing rail⟩)]

/-- All marks, those of spans on one line first, and the number of rails. -/
def markings (lines : List SourceLine) (as : List Annotation) : List Marking × Nat :=
  let placed := as.map fun a => (a, places lines a.span)
  let single := placed.filter fun (_, start, stop) => start.line == stop.line
  let several := placed.filter fun (_, start, stop) => start.line != stop.line
  (single.map (fun (a, start, stop) => wholeMark a start stop) ++
    (several.zipIdx 1).flatMap fun ((a, start, stop), rail) => railMarks lines rail a start stop,
   several.length)

/-- The lines that carry marks, with them. -/
def markedLines (lines : List SourceLine) (ms : List Marking) : List (SourceLine × List Mark) :=
  lines.filterMap fun l =>
    match ms.filter (·.1 == l.number) with
    | [] => none
    | here => some (l, here.map (·.2))

end Transducer.Excerpt
