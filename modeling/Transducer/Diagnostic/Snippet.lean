import Transducer.Diagnostic.Canvas
import Transducer.Diagnostic.Excerpt

/-!
A drawing of panels: diagnostics in the lines of source that they are about. Line numbers stand in a gutter; carets
under a line show the span of the diagnostic and dashes a related place. Labels stand behind their marks where nothing
else is marked, and otherwise hang below them. A span over several lines is held together by a rail left of the code. A
line that is too long for the window is cut on both sides of its marks. A fix is previewed as the line with the new text
and a plus under it.

The drawing is made for texts of one line and for characters of one column. In titles, labels and source alike a tab is
drawn as four blanks, and other control characters, line ends in a message among them, as the pictures that stand for
them. Nothing else is known about the width of a character.
-/

namespace Transducer.Snippet

open Excerpt

/-- How wide a drawing may be. -/
def totalWidth : Nat := 140

/-- The columns of the source that are shown. -/
structure Window where
  left : Nat
  right : Nat
  width : Nat
  deriving DecidableEq, Repr

namespace Window

/-- Room for the dots where a line was cut. -/
def clearance : Nat := 6

/-- Finds the columns to show: everything if it fits once long indentation in front of all marks is cut, and
otherwise as much as can be around the labels, or around the marks alone. -/
def around (indentation firstMark lastMark lastLabel width longest : Nat) : Window :=
  let indentation := min indentation firstMark - clearance
  let firstMark := firstMark - clearance
  let lastMark := lastMark + clearance
  let lastLabel := lastLabel + clearance
  let left := if 20 < indentation then indentation - 16 else 0
  let right := max longest left
  let from_ (left : Nat) : Window := ⟨left, left + width, width⟩
  if right - left ≤ width then ⟨left, right, width⟩
  else if lastLabel - indentation ≤ width then from_ indentation
  else if lastLabel - firstMark ≤ width then from_ (firstMark - (width - (lastLabel - firstMark)) / 2)
  else if lastMark - firstMark ≤ width then from_ (firstMark - (width - (lastMark - firstMark)) / 5 * 2)
  else ⟨firstMark, lastMark, width⟩

/-- The first column shown of a line of some length. -/
def leftOf (w : Window) (length : Nat) : Nat := min w.left length

/-- The column behind the last one shown. -/
def rightOf (w : Window) (length : Nat) : Nat :=
  if length - w.left ≤ w.width then length else min length w.right

end Window

/-- What the lines of a drawing have in common. -/
structure Layout where
  /-- The width of the line numbers. -/
  digits : Nat
  /-- How many rails there are. -/
  rails : Nat
  window : Window
  deriving DecidableEq, Repr

namespace Layout

/-- The column of the bar behind the line numbers. -/
def barColumn (l : Layout) : Nat := l.digits + 1

def railColumn (l : Layout) (rail : Nat) : Nat := l.digits + 2 + rail

/-- The column where code starts. -/
def codeColumn (l : Layout) : Nat := if l.rails = 0 then l.digits + 3 else l.digits + l.rails + 4

end Layout

def inkOf : Role → Ink
  | .primary => .primary
  | .related => .secondary

/-- The character under a marked column. -/
def underline : Role → Char
  | .primary => '^'
  | .related => '-'

/-- A new row that holds no more than the bar. -/
def drawBar (digits : Nat) (c : Canvas) : Canvas := c.put c.height (digits + 1) '|' .gutter

/-- The number of a line, flush right, and the bar. -/
def drawNumber (digits row number : Nat) (c : Canvas) : Canvas :=
  let text := (toString number).toList
  (c.write row (digits - text.length) text .gutter).put row (digits + 1) '|' .gutter

def dots : List Char := ['.', '.', '.']

/-- A line of source in a new row, as far as the window shows it. -/
def drawCode (l : Layout) (line : SourceLine) (c : Canvas) : Canvas :=
  let row := c.height
  let shown := line.shown
  let left := l.window.leftOf shown.length
  let right := l.window.rightOf shown.length
  let code := (shown.drop left).take (right - left)
  let c := drawNumber l.digits row line.number c
  let c := c.write row l.codeColumn code .plain
  let c := if 0 < l.window.left then c.write row l.codeColumn dots .gutter else c
  if right < shown.length then c.write row (l.codeColumn + code.length - dots.length) dots .gutter else c

/-- Whether the next label has to hang lower than one that hangs at `level`. -/
def pushesDown (level : Nat) (m next : Mark) : Bool :=
  let padding := if next.hasLabel then next.label.length + 2 else 0
  (m.overlaps next padding && m.hasLabel && next.hasLabel) ||
    (m.turns && (next.hasLabel || next.turns)) || (m.hasLabel && next.turns) ||
    (m.overlaps next padding && next.past ≤ m.past && next.hasLabel && level == 0)

/-- Whether a label cannot stand behind its mark because another mark is there. -/
def isCrowded (m : Mark) (later : List Mark) : Bool :=
  m.hasLabel && later.any fun next =>
    m.overlaps next 0 && !(next.first == m.first && next.past == m.past && !next.hasLabel)

/-- How far below the line each mark has its label, and the last level in use. -/
def levels : Nat → List Mark → List (Nat × Mark) × Nat
  | level, [] => ([], level)
  | level, m :: later =>
      let here := if level = 0 && isCrowded m later then 1 else level
      let (rest, last) := levels (if later.any (pushesDown here m) then here + 1 else here) later
      ((here, m) :: rest, last)

/-- The row where the rail of a mark turns, and what is hung from the mark down to it. -/
def drawTurn (l : Layout) (row rows column level : Nat) (m : Mark) (c : Canvas) : Canvas :=
  let ink := inkOf m.role
  let c := if 0 < level && (m.hasLabel || m.turns) then
      c.fillDown (row + 1) (row + level + 2) column '|' ink
    else c
  match m.extent with
  | .opening rail =>
      (c.put (row + level + 1) (l.railColumn rail) ' ' ink).fillDown (row + level + 2) (row + rows + 2)
        (l.railColumn rail) '|' ink
  | .closing rail => c.fillDown row (row + level + 2) (l.railColumn rail) '|' ink
  | _ => c

/-- The line from a rail to the column of a mark. -/
def drawHorizontal (l : Layout) (row column level : Nat) (m : Mark) (c : Canvas) : Canvas :=
  match m.extent with
  | .opening rail | .closing rail =>
      c.fill (row + level + 1) (l.railColumn rail + 1) column '_' (inkOf m.role)
  | _ => c

def drawLabel (l : Layout) (row left level : Nat) (m : Mark) (c : Canvas) : Canvas :=
  if level = 0 then
    let column := (if m.past = 0 then 2 else m.past + 1) - left
    c.write (row + 1) (l.codeColumn + column) m.label.toList (inkOf m.role)
  else c.write (row + level + 2) (l.codeColumn + (m.first - left)) m.label.toList (inkOf m.role)

def drawUnderline (l : Layout) (row left level : Nat) (m : Mark) (c : Canvas) : Canvas :=
  let ink := inkOf m.role
  let column := l.codeColumn + m.first - left
  let c := c.fill (row + 1) column (l.codeColumn + m.past - left) (underline m.role) ink
  if m.turns || (0 < level && m.hasLabel) then c.put (row + 1) column (underline m.role) ink else c

/-- Puts wider marks in front of narrower ones and related marks in front of primary ones of their width, so that
what is drawn last can be seen. -/
def drawingOrder (ms : List (Nat × Mark)) : List (Nat × Mark) :=
  ms.mergeSort fun a b =>
    b.2.width < a.2.width || (a.2.width == b.2.width && (!a.2.isPrimary || b.2.isPrimary))

/-- Everything below a line of source. -/
def drawMarks (l : Layout) (line : SourceLine) (row : Nat) (marks : List Mark) (c : Canvas) : Canvas :=
  let left := l.window.leftOf line.shown.length
  let sorted := marks.mergeSort fun a b => b.first ≤ a.first
  let (placed, last) := levels 0 sorted
  let rows := if last = 0 then 0 else last + 1
  let deepest := placed.foldl (fun n m => max n m.1) 0
  let allOpen := sorted.all Mark.isOpening
  let placed := if allOpen then placed.map fun (level, m) => (deepest - level, m) else placed
  let rows := if allOpen then rows - 1 else rows
  let column (m : Mark) : Nat := l.codeColumn + m.first - left
  let each (draw : Nat → Mark → Canvas → Canvas) (ms : List (Nat × Mark)) (c : Canvas) : Canvas :=
    ms.foldl (fun c (level, m) => draw level m c) c
  let c := c.fillDown (row + 1) (row + rows + 2) l.barColumn '|' .gutter
  let c := each (fun level m => drawHorizontal l row (column m) level m) placed c
  let c := each (fun level m => drawTurn l row rows (column m) level m) placed c
  let c := each (fun level m => drawLabel l row left level m) placed c
  each (fun level m => drawUnderline l row left level m) (drawingOrder placed) c

/-- Rails that are open, with the role of their spans. -/
abbrev Rails := List (Nat × Role)

/-- The rails that start or end on a line. -/
def turningRails (marks : List Mark) : Rails :=
  marks.filterMap fun m =>
    match m.extent with
    | .opening rail | .closing rail => some (rail, m.role)
    | _ => none

def drawRails (l : Layout) (first past : Nat) (rails : Rails) (c : Canvas) : Canvas :=
  rails.foldl (fun c (rail, role) => c.fillDown first past (l.railColumn rail) '|' (inkOf role)) c

/-- Whether a line has nothing but spans that open at its first character; a slash is enough to show them. -/
def opensAtStart (line : SourceLine) (marks : List Mark) : Bool :=
  marks.all fun m =>
    m.isThrough || (m.isOpening && (line.shown.take m.first).all Char.isWhitespace)

/-- A line of source with its marks. -/
def drawMarkedLine (l : Layout) (line : SourceLine) (marks : List Mark) (c : Canvas) : Canvas :=
  let row := c.height
  let c := drawCode l line c
  if opensAtStart line marks then
    marks.foldl (fun c m =>
      match m.extent with
      | .opening rail => c.put row (l.railColumn rail) '/' (inkOf m.role)
      | _ => c) c
  else if marks.all Mark.isThrough then c
  else drawMarks l line row marks c

/-- What stands between two marked lines: nothing, the one line that is there, or dots. -/
def drawGap (l : Layout) (lines : List SourceLine) (first next : Nat) (c : Canvas) : Canvas :=
  if first + 2 < next then c.write c.height 0 dots .gutter
  else if first + 2 = next then
    match lines.find? (·.number == first + 1) with
    | some line => drawCode l line c
    | none => c
  else c

/-- Draws marked lines from the top down, with the rails that are open above them. -/
def drawLines (l : Layout) (lines : List SourceLine) :
    Rails → List (SourceLine × List Mark) → Canvas → Canvas
  | _, [], c => c
  | rails, (line, marks) :: rest, c =>
      let row := c.height
      let c := drawMarkedLine l line marks c
      let turning := turningRails marks
      let kept := rails.filter fun r => !turning.any (·.1 == r.1)
      let opened := turning.filter fun r => !rails.any (·.1 == r.1)
      let c := drawRails l row c.height kept c
      let row := c.height
      let c := match rest with
        | (next, _) :: _ => drawGap l lines line.number next.number c
        | [] => c
      let c := drawRails l row c.height (kept ++ opened) c
      drawLines l lines (kept ++ opened) rest c

/-- The layout of a drawing of some marked lines. -/
def layoutOf (digits rails : Nat) (marked : List (SourceLine × List Mark)) : Layout :=
  let indentations := marked.filterMap fun (line, _) =>
    if line.text.all Char.isWhitespace then none else some (columnsOf (line.text.takeWhile Char.isWhitespace))
  let marks := marked.flatMap (·.2)
  let width := totalWidth - (Layout.codeColumn ⟨digits, rails, ⟨0, 0, 0⟩⟩)
  let labelEnd (m : Mark) : Nat := m.past + if m.hasLabel then m.label.length + 1 else 0
  ⟨digits, rails, .around (indentations.min?.getD 0) ((marks.map (·.first)).min?.getD 0)
    (marks.foldl (fun n m => max n m.past) 0) (marks.foldl (fun n m => max n (labelEnd m)) 0) width
    (marked.foldl (fun n line => max n line.1.shown.length) 0)⟩

/-- What a fix adds behind the span: its replacement without the text that it repeats. -/
def addedText (covered replacement : List Char) : List Char :=
  if covered.isPrefixOf replacement then replacement.drop covered.length else replacement

/-- A line with the text that a fix adds to it. -/
def drawFixed (digits : Nat) (mark : Char) (line : SourceLine) (place : Place) (added : List Char) (c : Canvas) :
    Canvas :=
  let row := c.height
  let front := (line.text.take place.char).flatMap shownChar
  let back := (line.text.drop place.char).flatMap shownChar
  let column := digits + 3
  let c := drawNumber digits row line.number c
  let c := if mark = '|' then c else c.put row (digits + 1) mark .addition
  let c := c.write row column front .plain
  let c := c.write row (column + front.length) added .addition
  c.write row (column + front.length + added.length) back .plain

/-- A line of context in the preview of a fix. -/
def drawContext (digits : Nat) (c : Canvas) (line : SourceLine) : Canvas :=
  (drawNumber digits c.height line.number c).write c.height (digits + 3) line.shown .plain

/-- The source with a span replaced. -/
def drawPatch (digits : Nat) (source : Source) (span : Span) (replacement : String) (c : Canvas) : Canvas :=
  let (start, stop) := places source.lines span
  let added := addedText (source.slice span) replacement.toList
  let line := lineAt source.lines span.stop
  let c := drawBar digits c
  if start.line = stop.line then
    let c := drawFixed digits '|' line stop added c
    let column := digits + 3 + stop.column
    (drawBar digits c).fill c.height column (column + added.length) '+' .addition
  else
    let context := source.lines.filter fun l => start.line ≤ l.number && l.number < stop.line
    let c := match context with
      | first :: _ :: _ :: _ :: _ =>
          let c := drawContext digits c first
          let c := c.write c.height 0 dots .gutter
          match context.getLast? with
          | some last => drawContext digits c last
          | none => c
      | few => few.foldl (drawContext digits) c
    drawBar digits (drawFixed digits '~' line stop added c)

/-- The place of the first annotation, and all of them in the lines where they are. -/
def drawAnnotations (digits : Nat) (source : Source) (path : Option String) (annotations : List Annotation)
    (c : Canvas) : Canvas :=
  let lines := source.lines
  let (ms, rails) := markings lines (annotations.map fun a => { a with label := shownText a.label })
  let marked := markedLines lines ms
  let row := c.height
  let c := match path, annotations.head? with
    | some path, some first =>
        let start := (places lines first.span).1
        (c.write row digits "--> ".toList .gutter).write row (digits + 4)
          (shownText s!"{path}:{start.line}:{start.char + 1}").toList .plain
    | _, _ => c
  drawLines (layoutOf digits rails marked) lines [] marked (drawBar digits c)

def inkOfLevel : Level → Ink
  | .error | .warning => .primary
  | .help => .help

def inkOfTitle : Exhibit → Ink
  | .marks _ _ => .title
  | .patch _ _ => .plain

/-- A new row with the level and the title of a panel. -/
def drawTitle (p : Panel) (c : Canvas) : Canvas :=
  let row := c.height
  let name := p.level.name.toList
  (c.write row 0 name (inkOfLevel p.level)).write row name.length (": " ++ shownText p.title).toList
    (inkOfTitle p.exhibit)

def drawExhibit (digits : Nat) (p : Panel) (c : Canvas) : Canvas :=
  let source := Source.ofString p.source
  match p.exhibit with
  | .marks path annotations => drawAnnotations digits source path annotations c
  | .patch span replacement => drawPatch digits source span replacement c

/-- A panel below those that are drawn already. -/
def drawPanel (digits : Nat) (c : Canvas) (p : Panel) : Canvas :=
  drawExhibit digits p (drawTitle p (if c.height = 0 then c else drawBar digits c))

/-- The width of the greatest line number that marks need. A preview needs none that is greater. -/
def digitsOf (p : Panel) : Nat :=
  match p.exhibit with
  | .marks _ annotations =>
      let last := annotations.foldl (fun n a => max n a.span.stop) 0
      (toString ((Source.ofString p.source).lineNumber last)).length
  | .patch _ _ => 0

def draw (panels : List Panel) : Canvas :=
  panels.foldl (drawPanel (panels.foldl (fun n p => max n (digitsOf p)) 0)) .empty

/-- Whether no span of a panel starts or stops inside a character. -/
def canDraw (p : Panel) : Bool :=
  let source := Source.ofString p.source
  p.spans.all fun span => source.isBetween span.start && source.isBetween span.stop

/-- The drawing of some panels. There is none if a span starts or stops inside a character. -/
def render : Drawing := fun colored panels =>
  if panels.all canDraw then
    some ((draw panels).text (if colored then .colored ((panels.head?.map Panel.level).getD .error) else .plain))
  else none

end Transducer.Snippet
