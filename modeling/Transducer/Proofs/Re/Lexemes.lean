import Transducer.Re.Text

/-!
# The lexemes of canonical text

The printer works off a list of pieces. What it writes for an expression is given here by recursion on the expression,
as a list of lexemes, and the printer is shown to write them one after the other. The counts that it consumes have no
say in this: they only decide whether a name is marked. A run of the printer is therefore described by the lexemes and
by what it writes for each of them, which for a name includes the mark and the count that is left.
-/

namespace Transducer.Re

/-- Operators whose operands are put in brackets. -/
inductive Bracket where
  | compose
  | subtract
  deriving DecidableEq, Repr

def Bracket.word : Bracket → String
  | .compose => "compose["
  | .subtract => "subtract["

inductive Lexeme where
  | parenOpen | parenClose | bar | blank | comma | bracketClose
  | bracketOpen (bracket : Bracket)
  | marker (quantifier : Quantifier)
  /-- An output with the colon in front of it. -/
  | output (cs : List CodePoint)
  | literal (cs : List CodePoint)
  /-- A run of several code points. -/
  | run (low high : CodePoint)
  | name (name : String)
  deriving DecidableEq, Repr

/-- Text that is to be written: as it is, or with a mark that depends on the counts. -/
inductive Chunk where
  | plain (text : String)
  | reference (name : String)
  deriving DecidableEq, Repr

namespace Lexeme

def text : Lexeme → String
  | .parenOpen => "("
  | .parenClose => ")"
  | .bar => "|"
  | .blank => " "
  | .comma => ","
  | .bracketClose => "]"
  | .bracketOpen bracket => bracket.word
  | .marker q => String.singleton q.marker
  | .output cs => ":" ++ Literal.text cs
  | .literal cs => Literal.text cs
  | .run low high => Literal.runText low high
  | .name n => n

def chunk : Lexeme → Chunk
  | .name n => .reference n
  | l => .plain l.text

/-- A run of one code point is a literal. -/
def ofRun (low high : CodePoint) : Lexeme := if low = high then .literal [low] else .run low high

end Lexeme

/-- The lexemes of an expression inside another one, with parentheses where it binds looser. -/
def enclosed (parent : Option Nat) (re : Re) (lexemes : List Lexeme) : List Lexeme :=
  if parent.any fun p => p < re.precedence then .parenOpen :: lexemes ++ [.parenClose] else lexemes

/-- The member runs of a class with bars between them. -/
def setLexemes (a : Alphabet) (k : CharClass) : List Lexeme :=
  ((k.memberRuns a).map fun r => Lexeme.ofRun r.low r.high).intersperse .bar

/-- What is written for an expression by itself. -/
def lexemes (a : Alphabet) : Re → List Lexeme
  | .union l r => enclosed (some 4) l (lexemes a l) ++ .bar :: enclosed (some 4) r (lexemes a r)
  | .concat l r => enclosed (some 3) l (lexemes a l) ++ .blank :: enclosed (some 3) r (lexemes a r)
  | .compose l r => .bracketOpen .compose :: (lexemes a l ++ .comma :: (lexemes a r ++ [.bracketClose]))
  | .diff l r => .bracketOpen .subtract :: (lexemes a l ++ .comma :: (lexemes a r ++ [.bracketClose]))
  | .kleene operand q => enclosed (some 2) operand (lexemes a operand) ++ [.marker q]
  | .output input cs => enclosed (some 1) input (lexemes a input) ++ [.output cs]
  | .char c => [.literal [c]]
  | .set k => setLexemes a k
  | .str cs => [.literal cs]
  | .var name => [.name name]

/-! ### Runs of the printer -/

/-- What was written. A reference comes with its mark and with the count that is left for its name. -/
inductive Printed where
  | plain (text : String)
  | reference (name : String) (marked : Bool) (left : Nat)
  deriving DecidableEq, Repr

namespace Printed

def text : Printed → String
  | .plain text => text
  | .reference name marked _ => (if marked then sharingMark else "") ++ name

def textOf (ps : List Printed) : String := String.join (ps.map text)

@[simp]
theorem textOf_nil : textOf [] = "" := rfl

@[simp]
theorem textOf_cons (p : Printed) (ps : List Printed) : textOf (p :: ps) = p.text ++ textOf ps := String.join_cons

@[simp]
theorem textOf_append (ps qs : List Printed) : textOf (ps ++ qs) = textOf ps ++ textOf qs := by
  rw [textOf, List.map_append, String.join_append]
  rfl

end Printed

namespace Chunk

/-- The counts behind a chunk. -/
def counts (u : Usages) : Chunk → Usages
  | .plain _ => u
  | .reference name => (takeReference u name).2

def print (u : Usages) : Chunk → Printed
  | .plain text => .plain text
  | .reference name => .reference name (takeReference u name).1 ((takeReference u name).2.count name)

end Chunk

def countsAfter (u : Usages) (chunks : List Chunk) : Usages := chunks.foldl Chunk.counts u

/-- What is written for some chunks, one after the other. -/
def trace (u : Usages) : List Chunk → List Printed
  | [] => []
  | c :: cs => c.print u :: trace (c.counts u) cs

theorem countsAfter_append (u : Usages) (cs ds : List Chunk) :
    countsAfter u (cs ++ ds) = countsAfter (countsAfter u cs) ds := List.foldl_append

theorem trace_append (u : Usages) (cs ds : List Chunk) :
    trace u (cs ++ ds) = trace u cs ++ trace (countsAfter u cs) ds := by
  induction cs generalizing u with
  | nil => rfl
  | cons c cs ih => exact congrArg (c.print u :: ·) (ih _)

/-! ### Pieces -/

/-- Working off the pieces writes the lexemes, whatever was written before, is left to write and is counted. -/
def Writes (a : Alphabet) (ls : List Lexeme) (pieces : List Piece) : Prop :=
  ∀ written work u, writePieces a written (pieces ++ work) u =
    writePieces a (written ++ Printed.textOf (trace u (ls.map Lexeme.chunk))) work
      (countsAfter u (ls.map Lexeme.chunk))

section Pieces

variable {a : Alphabet} {ls ms : List Lexeme} {re : Re}

theorem Writes.append {pieces others : List Piece} (h : Writes a ls pieces) (h' : Writes a ms others) :
    Writes a (ls ++ ms) (pieces ++ others) := by
  intro written work u
  rw [List.append_assoc, h, h', List.map_append, trace_append, countsAfter_append, Printed.textOf_append,
    String.append_assoc]

theorem writes_nil : Writes a [] [] := by
  intro written work u
  exact congrArg (writePieces a · work u) String.append_empty.symm

/-- What stands in front of the first child is written at once. -/
theorem writes_node {parent : Option Nat} {pieces : List Piece} (ls : List Lexeme)
    (hunfold : ∀ u, unfold a re parent u =
      (Printed.textOf (trace u (ls.map Lexeme.chunk)), pieces, countsAfter u (ls.map Lexeme.chunk)))
    (hpieces : Writes a ms pieces) : Writes a (ls ++ ms) [.node re parent] := by
  intro written work u
  rw [List.singleton_append, writePieces, hunfold]
  dsimp only
  rw [hpieces, List.map_append, trace_append, countsAfter_append, Printed.textOf_append, String.append_assoc]

theorem trace_plain {l : Lexeme} (hchunk : l.chunk = .plain l.text) (u : Usages) :
    Printed.textOf (trace u ([l].map Lexeme.chunk)) = l.text ∧ countsAfter u ([l].map Lexeme.chunk) = u := by
  simp only [List.map_cons, List.map_nil, hchunk]
  exact ⟨(Printed.textOf_cons _ _).trans String.append_empty, rfl⟩

theorem writes_mark {l : Lexeme} {c : Char} (htext : l.text = String.singleton c)
    (hchunk : l.chunk = .plain l.text) : Writes a [l] [.mark c] := by
  intro written work u
  obtain ⟨hprinted, hcounts⟩ := trace_plain hchunk u
  rw [List.singleton_append, writePieces, hprinted, hcounts, htext, String.append_singleton]

theorem writes_output (cs : List CodePoint) : Writes a [.output cs] [.mark ':', .literal cs] := by
  intro written work u
  obtain ⟨hprinted, hcounts⟩ := trace_plain (l := .output cs) rfl u
  rw [List.cons_append, List.singleton_append, writePieces, writePieces, hprinted, hcounts, Lexeme.text,
    ← String.append_assoc]
  rfl

/-- Operands in brackets. -/
theorem writes_bracket {l r : Re} {ls ms : List Lexeme} {parent : Option Nat} (bracket : Bracket)
    (hl : Writes a ls [.node l none]) (hr : Writes a ms [.node r none])
    (hunfold : ∀ u, unfold a re parent u =
      (bracket.word, [.node l none, .mark ',', .node r none, .mark ']'], u)) :
    Writes a (.bracketOpen bracket :: (ls ++ .comma :: (ms ++ [.bracketClose]))) [.node re parent] := by
  have hpieces := hl.append ((writes_mark (l := .comma) (c := ',') rfl rfl).append
    (hr.append (writes_mark (l := .bracketClose) (c := ']') rfl rfl)))
  refine writes_node [.bracketOpen bracket] (fun u => ?_) hpieces
  obtain ⟨hprinted, hcounts⟩ := trace_plain (l := .bracketOpen bracket) rfl u
  rw [hunfold, hprinted, hcounts]
  rfl

theorem writes_leaf {parent : Option Nat}
    (hunfold : ∀ u, unfold a re parent u =
      (Printed.textOf (trace u (ls.map Lexeme.chunk)), [], countsAfter u (ls.map Lexeme.chunk))) :
    Writes a ls [.node re parent] := by
  have hnode := writes_node ls hunfold writes_nil
  rwa [List.append_nil] at hnode

/-- Parentheses around an expression that is written right where it needs none. -/
theorem writes_enclosed
    (h : ∀ parent : Option Nat, (parent.any fun p => p < re.precedence) = false → Writes a ls [.node re parent])
    (parent : Option Nat) : Writes a (enclosed parent re ls) [.node re parent] := by
  unfold enclosed
  split
  · rename_i hloose
    have hpieces := (h none rfl).append (writes_mark (l := .parenClose) (c := ')') rfl rfl)
    refine writes_node [.parenOpen] (fun u => ?_) hpieces
    simp only [Re.unfold, hloose, if_true]
    rfl
  · rename_i hloose
    exact h parent (Bool.eq_false_iff.mpr hloose)

end Pieces

/-! ### Expressions -/

@[simp]
theorem Lexeme.text_ofRun (low high : CodePoint) : (Lexeme.ofRun low high).text = Literal.runText low high := by
  unfold Lexeme.ofRun Literal.runText
  split
  · rename_i heq
    subst heq
    by_cases hprintable : Literal.isPrintable low = true <;> simp [Lexeme.text, Literal.text, hprintable]
  · rename_i hne
    rw [Lexeme.text, Literal.runText, if_neg hne, if_neg hne]

theorem Lexeme.chunk_ofRun (low high : CodePoint) :
    (Lexeme.ofRun low high).chunk = .plain (Literal.runText low high) := by
  rw [← text_ofRun]
  unfold Lexeme.ofRun
  split <;> rfl

theorem trace_runs (u : Usages) (runs : List CharClass.Run) :
    Printed.textOf (trace u (((runs.map fun r => Lexeme.ofRun r.low r.high).intersperse .bar).map Lexeme.chunk)) =
        "|".intercalate (runs.map fun r => Literal.runText r.low r.high) ∧
      countsAfter u (((runs.map fun r => Lexeme.ofRun r.low r.high).intersperse .bar).map Lexeme.chunk) = u := by
  induction runs with
  | nil => exact ⟨rfl, rfl⟩
  | cons r runs ih =>
      cases runs with
      | nil =>
          have hchunk : (Lexeme.ofRun r.low r.high).chunk = .plain (Lexeme.ofRun r.low r.high).text := by
            rw [Lexeme.chunk_ofRun, Lexeme.text_ofRun]
          obtain ⟨hprinted, hcounts⟩ := trace_plain hchunk u
          exact ⟨hprinted.trans (Lexeme.text_ofRun _ _), hcounts⟩
      | cons r' runs =>
          simp only [List.map_cons, List.intersperse_cons_cons] at ih ⊢
          obtain ⟨htext, hcounts⟩ := ih
          constructor
          · rw [String.intercalate_cons_cons, ← htext, Lexeme.chunk_ofRun, String.append_assoc, trace, trace,
              Printed.textOf_cons, Printed.textOf_cons]
            rfl
          · rw [Lexeme.chunk_ofRun]
            exact hcounts

/-- Of an expression its lexemes are written, in parentheses where these are needed. -/
theorem writes_lexemes (a : Alphabet) (re : Re) (parent : Option Nat) :
    Writes a (enclosed parent re (lexemes a re)) [.node re parent] := by
  induction re generalizing parent with
  | union l r ihl ihr =>
      have hpieces := (ihl (some 4)).append ((writes_mark (l := .bar) (c := '|') rfl rfl).append (ihr (some 4)))
      refine writes_enclosed (fun parent hparent => writes_node [] (fun u => ?_) hpieces) parent
      simp only [Re.unfold, hparent]
      rfl
  | concat l r ihl ihr =>
      have hpieces := (ihl (some 3)).append ((writes_mark (l := .blank) (c := ' ') rfl rfl).append (ihr (some 3)))
      refine writes_enclosed (fun parent hparent => writes_node [] (fun u => ?_) hpieces) parent
      simp only [Re.unfold, hparent]
      rfl
  | compose l r ihl ihr =>
      refine writes_enclosed (fun parent hparent => writes_bracket .compose (ihl none) (ihr none) fun u => ?_) parent
      simp only [Re.unfold, hparent]
      rfl
  | diff l r ihl ihr =>
      refine writes_enclosed (fun parent hparent => writes_bracket .subtract (ihl none) (ihr none) fun u => ?_) parent
      simp only [Re.unfold, hparent]
      rfl
  | kleene operand q ih =>
      have hpieces := (ih (some 2)).append (writes_mark (l := .marker q) rfl rfl)
      refine writes_enclosed (fun parent hparent => writes_node [] (fun u => ?_) hpieces) parent
      simp only [Re.unfold, hparent]
      rfl
  | output input cs ih =>
      have hpieces := (ih (some 1)).append (writes_output cs)
      refine writes_enclosed (fun parent hparent => writes_node [] (fun u => ?_) hpieces) parent
      simp only [Re.unfold, hparent]
      rfl
  | char c =>
      refine writes_enclosed (fun parent hparent => writes_leaf fun u => ?_) parent
      simp only [Re.unfold, hparent, lexemes, (trace_plain (l := .literal [c]) rfl u).1]
      rfl
  | set k =>
      refine writes_enclosed (fun parent hparent => writes_leaf fun u => ?_) parent
      obtain ⟨htext, hcounts⟩ := trace_runs u (k.memberRuns a)
      simp only [Re.unfold, hparent, lexemes, setLexemes, htext, hcounts]
      rfl
  | str cs =>
      refine writes_enclosed (fun parent hparent => writes_leaf fun u => ?_) parent
      simp only [Re.unfold, hparent, lexemes, (trace_plain (l := .literal cs) rfl u).1]
      rfl
  | var name =>
      refine writes_enclosed (fun parent hparent => writes_leaf fun u => ?_) parent
      simp only [Re.unfold, hparent]
      exact Prod.ext ((Printed.textOf_cons _ _).trans String.append_empty).symm rfl

/-- What an expression is written as, and the counts it leaves. -/
theorem write_eq (a : Alphabet) (re : Re) (u : Usages) :
    write a re u = (Printed.textOf (trace u ((lexemes a re).map Lexeme.chunk)),
      countsAfter u ((lexemes a re).map Lexeme.chunk)) := by
  have hwrites := writes_lexemes a re none "" [] u
  rw [List.append_nil, writePieces, String.empty_append] at hwrites
  exact hwrites

end Transducer.Re
