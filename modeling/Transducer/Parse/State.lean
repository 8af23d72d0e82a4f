import Transducer.Diagnostic.Basic
import Transducer.Fault
import Transducer.Parse.Limits
import Transducer.Tree.Basic

/-!
The state of a parse: the tokens ahead, the part of the tree built so far, and what has been reported. Blanks,
line ends and comments are never looked at; they move into the tree in front of whatever comes next. The tree
grows in frames. A frame without a kind only marks a place: if it gets a kind later, everything built since the
mark becomes one node, and if it is closed without one, what it holds goes to the frame below.

At most one error is reported per position: a report where the last one was made is dropped. Once a limit is
hit the state is stopped, and the first limit hit is the one that counts.
-/

namespace Transducer.Parse

/-- A node under construction, its children last one first. -/
structure Frame where
  kind : Option Kind
  children : List Tree

/-- An opening delimiter that waits for its partner. -/
structure Delimiter where
  kind : Kind
  span : Span
  deriving DecidableEq, Repr

structure State where
  /-- The tokens not consumed yet, trivia included. -/
  rest : List Token
  /-- Where `rest` starts. -/
  offset : Nat
  /-- Where the source ends. -/
  length : Nat
  /-- The end of the last token consumed that is no trivia. -/
  lastEnd : Option Nat
  top : Frame
  below : List Frame
  /-- Last one first. -/
  diagnostics : List Diagnostic
  /-- Where the last error was reported. -/
  claimed : Option Nat
  /-- Innermost one first. -/
  delimiters : List Delimiter
  depth : Nat
  consumed : Nat
  limits : Limits
  stopped : Option LimitError
  /-- Last one first. -/
  journal : List Event

namespace State

def start (limits : Limits) (tokens : List Token) : State where
  rest := tokens
  offset := 0
  length := Token.totalWidth tokens
  lastEnd := none
  top := ⟨some .root, []⟩
  below := []
  diagnostics := []
  claimed := none
  delimiters := []
  depth := 0
  consumed := 0
  limits := limits
  stopped := none
  journal := []

/-- The tokens from the next significant one on. -/
def ahead (s : State) : List Token := s.rest.dropWhile Token.isTrivia

/-- The trivia in front of the next significant token. -/
def trivia (s : State) : List Token := s.rest.takeWhile Token.isTrivia

/-- Kind of the next significant token; `error` at the end of input. -/
def current (s : State) : Kind :=
  match s.ahead with
  | [] => .error
  | t :: _ => t.kind

def currentText (s : State) : String :=
  match s.ahead with
  | [] => ""
  | t :: _ => t.text

def currentSpan (s : State) : Span :=
  match s.ahead with
  | [] => .point s.length
  | t :: _ =>
      let start := s.offset + Token.totalWidth s.trivia
      ⟨start, start + t.width⟩

def looksAt (s : State) (k : Kind) : Bool := s.current == k

def looksAtAny (s : State) (ks : KindSet) : Bool := ks.contains s.current

/-- Whether the significant token after the next one has the given kind. -/
def isFollowedBy (s : State) (k : Kind) : Bool :=
  match (s.ahead.drop 1).dropWhile Token.isTrivia with
  | [] => false
  | t :: _ => t.kind == k

def atEnd (s : State) : Bool := s.ahead.isEmpty

def isStopped (s : State) : Bool := s.stopped.isSome

/-- The next token ends a broken statement. -/
def atBoundary (s : State) : Bool :=
  if s.current = .id then s.isFollowedBy .equals else KindSet.stmtBoundary.contains s.current

/-- The next token continues a juxtaposition. A name before `=` starts the next statement instead. -/
def atOperand (s : State) : Bool :=
  s.looksAtAny .exprFirst && !(s.current == .id && s.isFollowedBy .equals)

def attach (s : State) (t : Tree) : State :=
  { s with top := { s.top with children := t :: s.top.children } }

/-- Moves the trivia ahead into the top frame. -/
def flush (s : State) : State :=
  { s with
    rest := s.ahead
    offset := s.offset + Token.totalWidth s.trivia
    top := { s.top with children := (s.trivia.map Tree.leaf).reverse ++ s.top.children } }

/-- Opens a frame that takes the trivia ahead with it. -/
def openTight (s : State) (kind : Option Kind) : State :=
  { s with top := ⟨kind, []⟩, below := s.top :: s.below }

/-- Opens a node in front of the next significant token. -/
def openNode (s : State) (kind : Kind) : State := s.flush.openTight (some kind)

/-- Marks a place from where a node may be opened later. -/
def mark (s : State) : State := s.flush.openTight none

/-- Turns what was built since the innermost mark into a node under construction. -/
def wrap (s : State) (kind : Kind) : State := { s with top := { s.top with kind := some kind } }

def closeNode (s : State) : Except Fault State :=
  match s.below with
  | [] => .error .unbalanced
  | frame :: below =>
      let children := match s.top.kind with
        | some kind => Tree.node kind s.top.children.reverse :: frame.children
        | none => s.top.children ++ frame.children
      .ok { s with top := { frame with children }, below }

def stop (s : State) (e : LimitError) : State := { s with stopped := s.stopped <|> some e }

/-- Pays for one token. -/
def charge (s : State) (t : Token) : State :=
  let s := if s.limits.allowsToken s.consumed then s else s.stop .tokens
  { s with consumed := s.consumed + 1, journal := .consumed t :: s.journal }

/-- Consumes the next significant token, also when there is nothing left to pay for it. -/
def bump (s : State) : Except Fault State :=
  match s.ahead with
  | [] => .error .pastEnd
  | t :: ts =>
      let s := s.flush.charge t
      let stop := s.offset + t.width
      .ok { s.attach (.leaf t) with rest := ts, offset := stop, lastEnd := some stop }

/-- Consumes the next token if it has the given kind. -/
def skipOne (s : State) (k : Kind) : Except Fault State := if s.looksAt k then s.bump else .ok s

def requireCurrent (s : State) (k : Kind) : Except Fault Unit :=
  if s.current = k then .ok () else .error (.wrongToken k s.current)

/-- Adds a diagnostic at a position unless the last one was reported there. -/
def claim (s : State) (position : Nat) (report : Except Fault Diagnostic) : Except Fault State :=
  if s.claimed = some position then .ok s
  else report.map fun d => { s with claimed := some position, diagnostics := d :: s.diagnostics }

/-- An error inside an open delimiter may cause others up to the end of input, since the delimiter is usually
the real problem. -/
def cascade (s : State) : Except Fault Span :=
  match s.delimiters with
  | d :: _ => Span.checked d.span.start s.length
  | [] => .ok s.currentSpan

/-- Reports at the next token without consuming it. -/
def report (s : State) (issue : Issue) (detail : String) : Except Fault State :=
  s.claim s.currentSpan.start do
    return { Diagnostic.withDetail issue s.currentSpan detail with cascade := ← s.cascade }

/-- Consumes a token of the given kind, or reports that it is missing. -/
def expect (s : State) (k : Kind) (issue : Issue) (detail : String) : Except Fault State :=
  if s.looksAt k then s.bump else s.report issue detail

/-- Consumes `;`. A missing one is reported right after the token before it, with a fix that inserts it. -/
def expectSemicolon (s : State) (detail : String) : Except Fault State :=
  if s.looksAt .semicolon then s.bump
  else
    let position := s.lastEnd.getD s.currentSpan.start
    s.claim position
      (.ok { Diagnostic.withDetail .expectedSemicolon (.point position) detail with
        fix := some ⟨"add `;`", ";"⟩ })

/-- Consumes an opening delimiter and remembers it. -/
def openDelimiter (s : State) (k : Kind) : Except Fault State := do
  s.requireCurrent k
  { s with delimiters := ⟨k, s.currentSpan⟩ :: s.delimiters }.bump

def arePartners : Kind → Kind → Bool
  | .parenOpen, .parenClose => true
  | .bracketOpen, .bracketClose => true
  | .braceOpen, .braceClose => true
  | _, _ => false

/-- The issue that a missing closing delimiter raises, and how the delimiter is written. -/
def unclosed : Kind → Issue × String
  | .parenClose => (.unclosedParen, "`)`")
  | .bracketClose => (.unclosedBracket, "`]`")
  | _ => (.unclosedBrace, "`\x7d`")

/-- Reports that a delimiter has no partner: from the delimiter to the next token. -/
def reportUnclosed (s : State) (d : Delimiter) (closer : Kind) (construct : String) :
    Except Fault State :=
  s.claim s.currentSpan.start do
    let span ← Span.checked d.span.start s.currentSpan.stop
    let (issue, written) := unclosed closer
    return { Diagnostic.withDetail issue span s!"expected {written}" with
      related := [⟨s!"{construct} started here", d.span⟩] }

/-- Consumes the partner of the innermost open delimiter, or reports that it is missing. -/
def closeDelimiter (s : State) (closer : Kind) (construct : String) : Except Fault State :=
  match s.delimiters with
  | [] => s.skipOne closer
  | d :: ds =>
      let s := { s with delimiters := ds }
      if arePartners d.kind closer then
        if s.looksAt closer then s.bump else s.reportUnclosed d closer construct
      else .error (.mismatched d.kind closer)

/-- Reports a string that is not closed and wraps it in an error node. -/
def unterminatedString (s : State) : Except Fault State := do
  let span := s.currentSpan
  let quote := if s.currentText.toList.head? = some '\x22' then "\x22" else "'"
  let s ← s.claim span.start do
    return { Diagnostic.ofIssue .unterminatedString span with
      fix := some ⟨s!"close with {quote}", s.currentText ++ quote⟩
      cascade := ← Span.checked span.start s.length }
  let s ← (s.openNode .error).bump
  s.closeNode

/-- Enters an expression; the state stops if expressions nest too deep. -/
def descend (s : State) : State :=
  let s := { s with journal := .entered s.depth :: s.journal }
  if s.limits.allowsDepth s.depth then { s with depth := s.depth + 1 } else s.stop .depth

def ascend (s : State) : State := { s with depth := s.depth - 1 }

end State

end Transducer.Parse
