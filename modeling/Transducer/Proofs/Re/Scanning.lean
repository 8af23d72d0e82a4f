import Transducer.Proofs.CharClass.Algebra
import Transducer.Proofs.Literal.Decoding
import Transducer.Proofs.Re.Lexemes
import Transducer.Token.Rule

/-!
# Canonical text falls into lexemes in one way

A scanner takes one lexeme off a text. The first character decides what kind of lexeme it is, literals bring their own
end, and a name goes on as far as it can. That is where the text behind a lexeme matters: a name has to be followed by
something that neither continues it nor opens a bracket. The printer never puts anything else behind a name, so the
lexemes of an expression can be told from its text.
-/

namespace Transducer.Re

/-- A name that sources can define. -/
def IsName (name : String) : Prop :=
  ∃ c cs, name.toList = c :: cs ∧ Rule.isNameStart c = true ∧ ∀ d ∈ cs, Rule.isNameRest d = true

namespace Lexeme

/-- What can be told from the text alone: a run of one code point reads as a literal. -/
def Sound : Lexeme → Prop
  | .run low high => low ≠ high
  | .name n => IsName n
  | _ => True

def isName : Lexeme → Bool
  | .name _ => true
  | _ => false

/-- The text of the lexeme neither goes on with a name nor opens a bracket. -/
def delimits : Lexeme → Bool
  | .parenClose | .bar | .blank | .comma | .bracketClose | .marker _ | .output _ => true
  | _ => false

def chars (l : Lexeme) : List Char := l.text.toList

def charsOf (ls : List Lexeme) : List Char := ls.flatMap chars

/-! ### The scanner -/

def ofMark? : Char → Option Lexeme
  | '(' => some .parenOpen
  | ')' => some .parenClose
  | '|' => some .bar
  | ' ' => some .blank
  | ',' => some .comma
  | ']' => some .bracketClose
  | '*' => some (.marker .zeroOrMore)
  | '+' => some (.marker .oneOrMore)
  | '?' => some (.marker .zeroOrOne)
  | _ => none

/-- Numbers between angle brackets; a dash makes them the ends of a run. -/
def ofNumbers : List CodePoint → Bool → Lexeme
  | [low, high], true => .run low high
  | cs, _ => .literal cs

/-- Reads the two ends of a run behind its bracket. -/
def scanRun (cs : List Char) : Option (Lexeme × List Char) := do
  let (low, rest) ← Literal.read? cs
  let (high, rest) ← Literal.read? (rest.drop 1)
  some (ofNumbers (low ++ high) true, rest.drop 1)

/-- Reads a name, or a word with the bracket that it opens. -/
def scanWord (cs : List Char) : Lexeme × List Char :=
  let word := String.ofList (cs.takeWhile Rule.isNameRest)
  match cs.dropWhile Rule.isNameRest with
  | '[' :: rest => (.bracketOpen (if word = "compose" then .compose else .subtract), rest)
  | rest => (.name word, rest)

def scan : List Char → Option (Lexeme × List Char)
  | [] => none
  | c :: cs =>
      match ofMark? c with
      | some l => some (l, cs)
      | none =>
          if c = ':' then (Literal.read? cs).map fun r => (.output r.1, r.2)
          else if c = '\x27' then (Literal.readQuoted false cs).map fun r => (.literal r.1, r.2)
          else if c = '<' then (Literal.readNumbers 0 cs).map fun r => (ofNumbers r.1 r.2.1, r.2.2)
          else if c = '[' then scanRun cs
          else some (scanWord (c :: cs))

/-! ### One lexeme -/

theorem scan_literal (cs : List CodePoint) (rest : List Char) :
    scan ((Literal.text cs).toList ++ rest) = some (.literal cs, rest) := by
  unfold Literal.text
  split
  · rename_i hprintable
    rw [Literal.toList_quoted, List.cons_append, List.append_assoc]
    exact congrArg (Option.map _) (Literal.readQuoted_escaped hprintable rest)
  · rename_i hprintable
    rw [Literal.toList_numbered, List.cons_append, List.append_assoc]
    have hread := Literal.readNumbers_blanks (Literal.ne_nil_of_not_printable hprintable) rest
    have hliteral : ofNumbers cs false = .literal cs := by
      unfold ofNumbers
      split
      · contradiction
      · rfl
    rw [← hliteral]
    exact congrArg (Option.map _) hread

theorem scan_run {low high : CodePoint} (hne : low ≠ high) (rest : List Char) :
    scan ((Literal.runText low high).toList ++ rest) = some (.run low high, rest) := by
  unfold Literal.runText
  split
  · rename_i hprintable
    obtain ⟨hlow, hhigh⟩ := Bool.and_eq_true_iff.mp hprintable
    have hquoted {c : CodePoint} (hc : Literal.isPrintable c = true) : Literal.quoted [c] = Literal.text [c] := by
      rw [Literal.text, List.all_cons, hc]
      rfl
    have htext : ("[" ++ Literal.quoted [low] ++ "-" ++ Literal.quoted [high] ++ "]").toList ++ rest =
        '[' :: ((Literal.text [low]).toList ++ '-' :: ((Literal.text [high]).toList ++ ']' :: rest)) := by
      simp only [String.toList_append, hquoted hlow, hquoted hhigh, List.append_assoc]
      rfl
    have hscan : scanRun ((Literal.text [low]).toList ++ '-' :: ((Literal.text [high]).toList ++ ']' :: rest)) =
        some (.run low high, rest) := by
      rw [scanRun, Literal.read?_text, Option.bind_eq_bind, Option.bind_some]
      dsimp only [List.drop]
      rw [Literal.read?_text]
      rfl
    rw [htext]
    exact hscan
  · have htext : (s!"<{low}-{high}>").toList ++ rest =
        '<' :: ((toString low).toList ++ '-' :: ((toString high).toList ++ '>' :: rest)) := by
      simp only [String.toList_append, List.append_assoc]
      rfl
    rw [htext]
    exact congrArg (Option.map _) (Literal.readNumbers_dash low high rest)

theorem isNameRest_of_isNameStart {c : Char} (h : Rule.isNameStart c = true) : Rule.isNameRest c = true := by
  simp only [Rule.isNameStart, Rule.isNameRest, Char.isAlphanum, Bool.or_eq_true] at h ⊢
  obtain h | h := h
  · exact .inl (.inl (.inl h))
  · exact .inl (.inr h)

/-- A name is read up to the first character that cannot continue it. -/
theorem takeWhile_isNameRest {cs : List Char} (hcs : ∀ d ∈ cs, Rule.isNameRest d = true) {rest : List Char}
    (hrest : ∀ d ∈ rest.head?, Rule.isNameRest d = false) :
    (cs ++ rest).takeWhile Rule.isNameRest = cs ∧ (cs ++ rest).dropWhile Rule.isNameRest = rest := by
  rw [List.takeWhile_append_of_pos hcs, List.dropWhile_append_of_pos hcs]
  cases rest with
  | nil => exact ⟨List.append_nil cs, rfl⟩
  | cons d rest =>
      have hd : ¬ Rule.isNameRest d = true := Bool.eq_false_iff.mp (hrest d rfl)
      rw [List.takeWhile_cons_of_neg hd, List.dropWhile_cons_of_neg hd]
      exact ⟨List.append_nil cs, rfl⟩

theorem scan_of_isNameStart {c : Char} (h : Rule.isNameStart c = true) (cs : List Char) :
    scan (c :: cs) = some (scanWord (c :: cs)) := by
  have hne {d : Char} (hd : Rule.isNameStart d = false) : ¬ c = d := by
    rintro rfl
    rw [hd] at h
    cases h
  have hmark : ofMark? c = none := by
    unfold ofMark?
    split <;> first | rfl | exact absurd rfl (hne (by decide))
  rw [scan, hmark]
  dsimp only
  rw [if_neg (hne (by decide)), if_neg (hne (by decide)), if_neg (hne (by decide)), if_neg (hne (by decide))]

theorem scan_name {n : String} (hn : IsName n) {rest : List Char}
    (hrest : ∀ d ∈ rest.head?, Rule.isNameRest d = false ∧ d ≠ '[') :
    scan (n.toList ++ rest) = some (.name n, rest) := by
  obtain ⟨c, cs, htext, hstart, hcs⟩ := hn
  have hall : ∀ d ∈ c :: cs, Rule.isNameRest d = true :=
    List.forall_mem_cons.mpr ⟨isNameRest_of_isNameStart hstart, hcs⟩
  obtain ⟨htake, hdrop⟩ := takeWhile_isNameRest hall fun d hd => (hrest d hd).1
  rw [htext, List.cons_append, scan_of_isNameStart hstart, ← List.cons_append, scanWord, htake, hdrop, ← htext,
    String.ofList_toList]
  split
  · exact absurd rfl (hrest '[' rfl).2
  · rfl

theorem scan_bracketOpen (bracket : Bracket) (rest : List Char) :
    scan (bracket.word.toList ++ rest) = some (.bracketOpen bracket, rest) := by
  cases bracket <;> rfl

/-- The scanner takes a lexeme off, if what follows a name ends it. -/
theorem scan_chars {l : Lexeme} (hl : l.Sound) {rest : List Char}
    (hrest : l.isName = true → ∀ d ∈ rest.head?, Rule.isNameRest d = false ∧ d ≠ '[') :
    scan (l.chars ++ rest) = some (l, rest) := by
  cases l with
  | output cs =>
      have hchars : (Lexeme.output cs).chars = ':' :: (Literal.text cs).toList := String.toList_append
      rw [hchars]
      exact congrArg (Option.map _) (Literal.read?_text cs rest)
  | literal cs => exact scan_literal cs rest
  | run low high => exact scan_run hl rest
  | name n => exact scan_name hl (hrest rfl)
  | bracketOpen bracket => exact scan_bracketOpen bracket rest
  | marker q => cases q <;> rfl
  | _ => rfl

theorem head_of_delimits {l : Lexeme} (hl : l.delimits = true) (rest : List Char) :
    ∀ d ∈ (l.chars ++ rest).head?, Rule.isNameRest d = false ∧ d ≠ '[' := by
  cases l with
  | output cs =>
      have hchars : (Lexeme.output cs).chars = ':' :: (Literal.text cs).toList := String.toList_append
      rw [hchars]
      rintro d ⟨⟩
      decide
  | marker q => cases q <;> (rintro d ⟨⟩; decide)
  | parenClose | bar | blank | comma | bracketClose =>
      rintro d ⟨⟩
      decide
  | _ => cases hl

end Lexeme

/-! ### Lists of lexemes -/

/-- Every lexeme can be read by itself, and whatever follows a name ends it. -/
inductive Clear : List Lexeme → Prop where
  | nil : Clear []
  | cons {l : Lexeme} {ls : List Lexeme} : l.Sound → (l.isName = true → ∀ m ∈ ls.head?, m.delimits = true) →
      Clear ls → Clear (l :: ls)

namespace Clear

variable {l m : Lexeme} {ls ms : List Lexeme}

theorem mark (hname : l.isName = false) (hl : l.Sound) (h : Clear ls) : Clear (l :: ls) :=
  .cons hl (fun htrue => by rw [hname] at htrue; cases htrue) h

theorem append (hls : Clear ls) (hm : m.delimits = true) (hms : Clear (m :: ms)) : Clear (ls ++ m :: ms) := by
  induction hls with
  | nil => exact hms
  | @cons l ls hl hnext _ ih =>
      refine .cons hl (fun hname => ?_) ih
      cases ls with
      | nil =>
          rintro _ ⟨⟩
          exact hm
      | cons l' ls => exact hnext hname

theorem scan (h : Clear (l :: ls)) : Lexeme.scan (Lexeme.charsOf (l :: ls)) = some (l, Lexeme.charsOf ls) := by
  cases h with
  | cons hl hnext _ =>
      refine Lexeme.scan_chars hl fun hname => ?_
      cases ls with
      | nil => intro d hd; cases hd
      | cons m ls => exact Lexeme.head_of_delimits (hnext hname m rfl) _

theorem charsOf_inj (hls : Clear ls) (hms : Clear ms) (h : Lexeme.charsOf ls = Lexeme.charsOf ms) : ls = ms := by
  induction hls generalizing ms with
  | nil =>
      cases ms with
      | nil => rfl
      | cons m ms =>
          have hscan := hms.scan
          rw [← h] at hscan
          cases hscan
  | @cons l ls hl hnext hrest ih =>
      have hscan := (Clear.cons hl hnext hrest).scan
      rw [h] at hscan
      cases hms with
      | nil => cases hscan
      | @cons m ms hm hmnext hmrest =>
          rw [(Clear.cons hm hmnext hmrest).scan] at hscan
          obtain ⟨rfl, htail⟩ := Prod.mk.injEq .. ▸ Option.some.inj hscan
          rw [ih hmrest htail.symm]

end Clear

/-! ### Expressions -/

/-- The classes are well-formed and the names can be defined in sources. -/
def Legible (a : Alphabet) : Re → Prop
  | .union l r | .concat l r | .compose l r | .diff l r => l.Legible a ∧ r.Legible a
  | .kleene operand _ => operand.Legible a
  | .output input _ => input.Legible a
  | .set k => CharClass.WellFormed a k
  | .var name => IsName name
  | .char _ | .str _ => True

theorem clear_enclosed {ls : List Lexeme} (h : Clear ls) (parent : Option Nat) (re : Re) :
    Clear (enclosed parent re ls) := by
  unfold enclosed
  split
  · exact .mark rfl trivial (h.append rfl (.mark rfl trivial .nil))
  · exact h

theorem clear_setLexemes (a : Alphabet) (k : CharClass) : Clear (setLexemes a k) := by
  have hrun {ls : List Lexeme} (r : CharClass.Run) (h : Clear ls) : Clear (Lexeme.ofRun r.low r.high :: ls) := by
    unfold Lexeme.ofRun
    split
    · exact .mark rfl trivial h
    · rename_i hne
      exact .mark rfl hne h
  rw [setLexemes]
  induction k.memberRuns a with
  | nil => exact .nil
  | cons r runs ih =>
      cases runs with
      | nil => exact hrun r .nil
      | cons r' runs => exact hrun r (.mark rfl trivial ih)

theorem clear_lexemes {a : Alphabet} {re : Re} (h : re.Legible a) : Clear (lexemes a re) := by
  induction re with
  | union l r ihl ihr | concat l r ihl ihr =>
      obtain ⟨hl, hr⟩ := h
      exact (clear_enclosed (ihl hl) _ l).append rfl (.mark rfl trivial (clear_enclosed (ihr hr) _ r))
  | compose l r ihl ihr | diff l r ihl ihr =>
      obtain ⟨hl, hr⟩ := h
      have hclose : Clear (lexemes a r ++ [.bracketClose]) := (ihr hr).append rfl (.mark rfl trivial .nil)
      exact .mark rfl trivial ((ihl hl).append rfl (.mark rfl trivial hclose))
  | kleene operand q ih => exact (clear_enclosed (ih h) _ operand).append rfl (.mark rfl trivial .nil)
  | output input cs ih => exact (clear_enclosed (ih h) _ input).append rfl (.mark rfl trivial .nil)
  | set k => exact clear_setLexemes a k
  | char c => exact .mark rfl trivial .nil
  | str cs => exact .mark rfl trivial .nil
  | var name =>
      refine .cons h (fun _ m hm => ?_) .nil
      cases hm

/-- Without counts nothing is marked, and the lexemes are all that is written. -/
theorem toList_write_empty (a : Alphabet) (re : Re) :
    (write a re Table.empty).1.toList = Lexeme.charsOf (lexemes a re) := by
  rw [write_eq]
  dsimp only
  induction lexemes a re with
  | nil => rfl
  | cons l ls ih =>
      have hcounts : l.chunk.counts Table.empty = Table.empty := by cases l <;> rfl
      have hprint : (l.chunk.print Table.empty).text = l.text := by
        cases l with
        | name n => exact String.empty_append
        | _ => rfl
      rw [List.map_cons, trace, hcounts, Printed.textOf_cons, String.toList_append, ih, hprint]
      rfl

theorem lexemes_of_write {a : Alphabet} {re re' : Re} (h : re.Legible a) (h' : re'.Legible a)
    (hwrite : (write a re Table.empty).1 = (write a re' Table.empty).1) : lexemes a re = lexemes a re' := by
  apply Clear.charsOf_inj (clear_lexemes h) (clear_lexemes h')
  rw [← toList_write_empty, ← toList_write_empty, hwrite]

end Transducer.Re
