import Transducer.CharClass.Runs
import Transducer.Literal.Quoted
import Transducer.Re.Basic

/-!
The canonical text of expressions. Printing consumes usage counts: a reference that is not the last one to its
name is marked with `!!`. An expression is put in parentheses if it binds looser than what it stands in. The
printer works off a list of pieces instead of calling itself, because chains from long sources are nested deeper
than a stack would allow.
-/

namespace Transducer.Re

/-- Number of nodes, which bounds the work of the printer. -/
def size : Re → Nat
  | .union l r | .concat l r | .compose l r | .diff l r => l.size + r.size + 1
  | .kleene operand _ => operand.size + 1
  | .output input _ => input.size + 1
  | .char _ | .set _ | .str _ | .var _ => 1

/-- Output that is still to be written. -/
inductive Piece where
  /-- An expression inside one of the given precedence. -/
  | node (re : Re) (parent : Option Nat)
  | mark (c : Char)
  | literal (cs : List CodePoint)

namespace Piece

def weight : Piece → Nat
  | .node re none => 6 * re.size
  | .node re (some _) => 6 * re.size + 2
  | .mark _ | .literal _ => 1

def weightOf : List Piece → Nat
  | [] => 0
  | piece :: work => piece.weight + weightOf work

theorem weightOf_append (v w : List Piece) : weightOf (v ++ w) = weightOf v + weightOf w := by
  induction v with
  | nil => exact (Nat.zero_add _).symm
  | cons p v ih => simp only [List.cons_append, weightOf, ih, Nat.add_assoc]

end Piece

/-- Consumes one reference; true while there are more to come. -/
def takeReference (remaining : Usages) (name : String) : Bool × Usages :=
  match remaining.get? name with
  | some n => (decide (1 < n), remaining.insert name (n - 1))
  | none => (false, remaining)

def sharingMark : String := "!!"

/-- The member runs of a class, joined by bars. -/
def setText (a : Alphabet) (k : CharClass) : String :=
  "|".intercalate ((k.memberRuns a).map fun r => Literal.runText r.low r.high)

/-- The text in front of the first child of an expression, the pieces that are left, and the counts. -/
def unfold (a : Alphabet) (re : Re) (parent : Option Nat) (remaining : Usages) :
    String × List Piece × Usages :=
  let level := re.precedence
  let inside : Option Nat := some level
  if parent.any fun p => p < level then ("(", [.node re none, .mark ')'], remaining)
  else
    match re with
    | .union l r => ("", [.node l inside, .mark '|', .node r inside], remaining)
    | .concat l r => ("", [.node l inside, .mark ' ', .node r inside], remaining)
    | .compose l r => ("compose[", [.node l none, .mark ',', .node r none, .mark ']'], remaining)
    | .diff l r => ("subtract[", [.node l none, .mark ',', .node r none, .mark ']'], remaining)
    | .kleene operand q => ("", [.node operand inside, .mark q.marker], remaining)
    | .output input cs => ("", [.node input inside, .mark ':', .literal cs], remaining)
    | .char c => (Literal.text [c], [], remaining)
    | .set k => (setText a k, [], remaining)
    | .str cs => (Literal.text cs, [], remaining)
    | .var name =>
        let (shared, remaining) := takeReference remaining name
        ((if shared then sharingMark else "") ++ name, [], remaining)

theorem weightOf_unfold_lt (a : Alphabet) (re : Re) (parent : Option Nat) (remaining : Usages) :
    Piece.weightOf (unfold a re parent remaining).2.1 < (Piece.node re parent).weight := by
  have hsize : 0 < re.size := by cases re <;> simp [size]
  unfold unfold
  dsimp only
  split
  · rename_i h
    cases parent with
    | none => simp at h
    | some p => simp [Piece.weightOf, Piece.weight]
  · have hparent : 6 * re.size ≤ (Piece.node re parent).weight := by
      cases parent <;> simp [Piece.weight]
    refine Nat.lt_of_lt_of_le ?_ hparent
    cases re <;> simp [Piece.weightOf, Piece.weight, size] <;> omega

/-- Writes pieces behind what is written already. -/
def writePieces (a : Alphabet) (written : String) (work : List Piece) (remaining : Usages) :
    String × Usages :=
  match work with
  | [] => (written, remaining)
  | .mark c :: work => writePieces a (written.push c) work remaining
  | .literal cs :: work => writePieces a (written ++ Literal.text cs) work remaining
  | .node re parent :: work =>
      let step := unfold a re parent remaining
      writePieces a (written ++ step.1) (step.2.1 ++ work) step.2.2
termination_by Piece.weightOf work
decreasing_by
  · simp [Piece.weightOf, Piece.weight]
  · simp [Piece.weightOf, Piece.weight]
  · have := weightOf_unfold_lt a re parent remaining
    simp only [Piece.weightOf, Piece.weightOf_append] at this ⊢
    omega

/-- The text of an expression, and the counts it leaves. -/
def write (a : Alphabet) (re : Re) (remaining : Usages) : String × Usages :=
  writePieces a "" [.node re none] remaining

/-- A definition with its line end. -/
def writeDefinition (a : Alphabet) (name : String) (re : Re) (remaining : Usages) : String × Usages :=
  let (text, remaining) := write a re remaining
  (name ++ " = " ++ text ++ "\n", remaining)

/-- All definitions of a table, one by one. -/
def writeTable (a : Alphabet) (t : Table Re) : String :=
  (t.entries.foldl
    (fun (acc : String × Usages) e =>
      let (line, remaining) := writeDefinition a e.1 e.2 acc.2
      (acc.1 ++ line, remaining))
    ("", Usages.ofTable t)).1

end Transducer.Re
