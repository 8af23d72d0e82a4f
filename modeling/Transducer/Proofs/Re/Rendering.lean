import Transducer.Proofs.Re.Lexemes

/-!
# The printer renders

Canonical text has a recursive definition: an expression is rendered by rendering its operands, and put in parentheses
where it binds looser than what it stands in. The counts are passed on from one operand to the next. The printer does
not work that way, since it schedules what is to be written and puts an expression that needs parentheses back without
its surroundings. What it writes for an expression is known as lexemes, so it is enough that the recursive definition
gives the text of these lexemes and the counts that they leave.
-/

namespace Transducer.Re

/-- The text of an expression in its surroundings. -/
def parenthesized (re : Re) (parent : Option Nat) (text : String) : String :=
  match parent with
  | some level => if level < re.precedence then "(" ++ text ++ ")" else text
  | none => text

/-- A reference takes one from the count of its name. It is marked if some are left. -/
def renderName (name : String) (u : Usages) : String × Usages :=
  match u.get? name with
  | some n => ((if 0 < n - 1 then "!!" else "") ++ name, u.insert name (n - 1))
  | none => (name, u)

/-- The text of an expression inside one of the given precedence, and the counts that are left. -/
def render (a : Alphabet) (re : Re) (parent : Option Nat) (u : Usages) : String × Usages :=
  let level : Option Nat := some re.precedence
  let body : String × Usages :=
    match re with
    | .union l r =>
        let left := render a l level u
        let right := render a r level left.2
        (left.1 ++ "|" ++ right.1, right.2)
    | .concat l r =>
        let left := render a l level u
        let right := render a r level left.2
        (left.1 ++ " " ++ right.1, right.2)
    | .compose l r =>
        let left := render a l none u
        let right := render a r none left.2
        ("compose[" ++ left.1 ++ "," ++ right.1 ++ "]", right.2)
    | .diff l r =>
        let left := render a l none u
        let right := render a r none left.2
        ("subtract[" ++ left.1 ++ "," ++ right.1 ++ "]", right.2)
    | .kleene operand q =>
        let inner := render a operand level u
        (inner.1 ++ String.singleton q.marker, inner.2)
    | .output input cs =>
        let inner := render a input level u
        (inner.1 ++ ":" ++ Literal.text cs, inner.2)
    | .char c => (Literal.text [c], u)
    | .set k => ("|".intercalate ((k.memberRuns a).map fun r => Literal.runText r.low r.high), u)
    | .str cs => (Literal.text cs, u)
    | .var name => renderName name u
  (parenthesized re parent body.1, body.2)

/-! ### Lexemes -/

/-- The text of some lexemes, and the counts that they leave. -/
def printed (ls : List Lexeme) (u : Usages) : String × Usages :=
  (Printed.textOf (trace u (ls.map Lexeme.chunk)), countsAfter u (ls.map Lexeme.chunk))

theorem printed_append (ls ms : List Lexeme) (u : Usages) :
    printed (ls ++ ms) u =
      ((printed ls u).1 ++ (printed ms (printed ls u).2).1, (printed ms (printed ls u).2).2) := by
  simp only [printed, List.map_append, trace_append, Printed.textOf_append, countsAfter_append]

theorem printed_plain {l : Lexeme} (hchunk : l.chunk = .plain l.text) (u : Usages) : printed [l] u = (l.text, u) :=
  Prod.ext (trace_plain hchunk u).1 (trace_plain hchunk u).2

theorem printed_cons {l : Lexeme} (hchunk : l.chunk = .plain l.text) (ls : List Lexeme) (u : Usages) :
    printed (l :: ls) u = (l.text ++ (printed ls u).1, (printed ls u).2) := by
  rw [← List.singleton_append, printed_append, printed_plain hchunk]

theorem printed_enclosed (parent : Option Nat) (re : Re) (ls : List Lexeme) (u : Usages) :
    printed (enclosed parent re ls) u = (parenthesized re parent (printed ls u).1, (printed ls u).2) := by
  cases parent with
  | none => rfl
  | some level =>
      rw [enclosed, parenthesized, Option.any_some]
      by_cases hloose : level < re.precedence
      · rw [if_pos hloose, if_pos (decide_eq_true hloose), List.cons_append, printed_cons rfl, printed_append,
          printed_plain rfl, ← String.append_assoc]
        rfl
      · rw [if_neg hloose, if_neg (mt of_decide_eq_true hloose)]

/-- A lexeme between two operands. -/
theorem printed_between {l : Lexeme} (hchunk : l.chunk = .plain l.text) (ls ms : List Lexeme) (u : Usages) :
    printed (ls ++ l :: ms) u =
      ((printed ls u).1 ++ l.text ++ (printed ms (printed ls u).2).1, (printed ms (printed ls u).2).2) := by
  rw [printed_append, printed_cons hchunk, String.append_assoc]

theorem printed_behind {l : Lexeme} (hchunk : l.chunk = .plain l.text) (ls : List Lexeme) (u : Usages) :
    printed (ls ++ [l]) u = ((printed ls u).1 ++ l.text, (printed ls u).2) := by
  rw [printed_append, printed_plain hchunk]

/-- Two operands in brackets. -/
theorem printed_bracket (bracket : Bracket) (ls ms : List Lexeme) (u : Usages) :
    printed (.bracketOpen bracket :: (ls ++ .comma :: (ms ++ [.bracketClose]))) u =
      (bracket.word ++ (printed ls u).1 ++ "," ++ (printed ms (printed ls u).2).1 ++ "]",
        (printed ms (printed ls u).2).2) := by
  rw [printed_cons rfl, printed_between rfl, printed_behind rfl]
  simp only [Lexeme.text, String.append_assoc]

theorem printed_name (name : String) (u : Usages) : printed [.name name] u = renderName name u := by
  have htext : printed [.name name] u =
      ((if (takeReference u name).1 then sharingMark else "") ++ name, (takeReference u name).2) :=
    Prod.ext ((Printed.textOf_cons _ _).trans String.append_empty) rfl
  rw [htext, takeReference, renderName]
  cases u.get? name with
  | none => exact Prod.ext String.empty_append rfl
  | some n =>
      have hleft : 0 < n - 1 ↔ 1 < n := Nat.sub_pos_iff_lt
      simp only [decide_eq_true_eq, hleft]
      rfl

theorem render_eq_printed (a : Alphabet) (re : Re) (parent : Option Nat) (u : Usages) :
    render a re parent u = printed (enclosed parent re (lexemes a re)) u := by
  induction re generalizing parent u with
  | union l r ihl ihr =>
      rw [printed_enclosed, lexemes, printed_between rfl]
      simp only [render, ihl, ihr]
      rfl
  | concat l r ihl ihr =>
      rw [printed_enclosed, lexemes, printed_between rfl]
      simp only [render, ihl, ihr]
      rfl
  | compose l r ihl ihr =>
      rw [printed_enclosed, lexemes, printed_bracket]
      simp only [render, ihl, ihr]
      rfl
  | diff l r ihl ihr =>
      rw [printed_enclosed, lexemes, printed_bracket]
      simp only [render, ihl, ihr]
      rfl
  | kleene operand q ih =>
      rw [printed_enclosed, lexemes, printed_behind rfl]
      simp only [render, ih]
      rfl
  | output input cs ih =>
      rw [printed_enclosed, lexemes, printed_behind rfl]
      simp only [render, ih, String.append_assoc]
      rfl
  | char c =>
      rw [printed_enclosed, lexemes, printed_plain rfl]
      rfl
  | set k =>
      obtain ⟨htext, hcounts⟩ := trace_runs u (k.memberRuns a)
      rw [printed_enclosed, lexemes, setLexemes, printed, htext, hcounts]
      rfl
  | str cs =>
      rw [printed_enclosed, lexemes, printed_plain rfl]
      rfl
  | var name =>
      rw [printed_enclosed, lexemes, printed_name]
      rfl

/-- The printer renders every expression, whatever counts it starts with: it writes the text of the recursive
definition and leaves its counts. That holds as well in the middle of its work, for an expression in any surroundings,
with any text written before it and anything left to be written behind it. -/
theorem printer_renders (a : Alphabet) (re : Re) (u : Usages) :
    write a re u = render a re none u ∧
      ∀ parent written work, writePieces a written (.node re parent :: work) u =
        writePieces a (written ++ (render a re parent u).1) work (render a re parent u).2 := by
  have hpieces (parent : Option Nat) (written : String) (work : List Piece) :
      writePieces a written (.node re parent :: work) u =
        writePieces a (written ++ (render a re parent u).1) work (render a re parent u).2 := by
    rw [render_eq_printed]
    exact writes_lexemes a re parent written work u
  refine ⟨?_, hpieces⟩
  rw [write, hpieces, writePieces, String.empty_append]

example :
    let re : Re := .concat (.union (.var "x") (.char 97)) (.compose (.kleene (.var "x") .oneOrMore) (.var "y"))
    (render .unicode re none (.ofReferences re.references)).1 = "(!!x|'a') compose[x+,y]" := by
  decide +kernel

end Transducer.Re
