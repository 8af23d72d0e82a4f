import Transducer.Proofs.Program.Meaning
import Transducer.Proofs.Re.Lexemes
import Transducer.Proofs.Table

/-!
# Sharing marks

Two passes go over a table: one counts the references to every name, and one prints the definitions and takes the
counts down. Both meet the same references in the same order. So at every point of the printing the count of a name is
the number of references to it that are still to come, and a reference is marked precisely when there is another one.
-/

namespace Transducer

namespace Usages

theorem count_insert (u : Usages) (name other : String) (n : Nat) :
    count (u.insert name n) other = if name = other then n else u.count other := by
  rw [count, Table.get?_insert]
  split
  · rfl
  · rfl

/-- Counting adds the number of occurrences to what was counted before. -/
theorem count_foldl_add (names : List String) (u : Usages) (name : String) :
    count (names.foldl add u) name = u.count name + names.count name := by
  induction names generalizing u with
  | nil => rfl
  | cons n names ih =>
      rw [List.foldl_cons, ih, add, count_insert, List.count_cons]
      by_cases hname : n = name
      · subst hname
        simp only [if_true, beq_self_eq_true]
        omega
      · simp only [if_neg hname, beq_eq_false_iff_ne.mpr hname]
        rfl

theorem count_ofReferences (names : List String) (name : String) :
    (ofReferences names).count name = names.count name := by
  rw [ofReferences, count_foldl_add]
  exact Nat.zero_add _

/-- The counts are the numbers of references that are still to come. -/
def Cover (u : Usages) (names : List String) : Prop := ∀ name, u.count name = names.count name

end Usages

namespace Re

open Usages

/-! ### References in a run of the printer -/

def Chunk.name? : Chunk → Option String
  | .plain _ => none
  | .reference name => some name

namespace Printed

def name? : Printed → Option String
  | .plain _ => none
  | .reference name _ _ => some name

/-- The names of all references, in the order in which they were written. -/
def names (ps : List Printed) : List String := ps.filterMap name?

/-- The marks of the references to one name, in their order. -/
def marksOf (name : String) (ps : List Printed) : List Bool :=
  ps.filterMap fun
    | .plain _ => none
    | .reference other marked _ => if other = name then some marked else none

end Printed

theorem names_trace (u : Usages) (cs : List Chunk) : Printed.names (trace u cs) = cs.filterMap Chunk.name? := by
  induction cs generalizing u with
  | nil => rfl
  | cons c cs ih =>
      cases c with
      | plain text => exact ih u
      | reference name => exact congrArg (name :: ·) (ih _)

/-- The names among some lexemes. -/
def namesOf (ls : List Lexeme) : List String := (ls.map Lexeme.chunk).filterMap Chunk.name?

@[simp]
theorem namesOf_append (ls ms : List Lexeme) : namesOf (ls ++ ms) = namesOf ls ++ namesOf ms := by
  simp only [namesOf, List.map_append, List.filterMap_append]

theorem namesOf_cons_of_plain {l : Lexeme} (hchunk : l.chunk = .plain l.text) (ls : List Lexeme) :
    namesOf (l :: ls) = namesOf ls := by
  simp only [namesOf, List.map_cons, hchunk]
  rfl

@[simp]
theorem namesOf_enclosed (parent : Option Nat) (re : Re) (ls : List Lexeme) :
    namesOf (enclosed parent re ls) = namesOf ls := by
  unfold enclosed
  split
  · rw [List.cons_append, namesOf_cons_of_plain rfl, namesOf_append]
    exact List.append_nil _
  · rfl

theorem namesOf_runs (runs : List CharClass.Run) :
    namesOf ((runs.map fun r => Lexeme.ofRun r.low r.high).intersperse .bar) = [] := by
  have hplain (r : CharClass.Run) : (Lexeme.ofRun r.low r.high).chunk = .plain (Lexeme.ofRun r.low r.high).text := by
    rw [Lexeme.chunk_ofRun, Lexeme.text_ofRun]
  induction runs with
  | nil => rfl
  | cons r runs ih =>
      cases runs with
      | nil => exact namesOf_cons_of_plain (hplain r) []
      | cons r' runs =>
          simp only [List.map_cons, List.intersperse_cons_cons] at ih ⊢
          rw [namesOf_cons_of_plain (hplain r), namesOf_cons_of_plain rfl]
          exact ih

/-- The names are written in the order in which they are counted. -/
theorem namesOf_lexemes (a : Alphabet) (re : Re) : namesOf (lexemes a re) = re.references := by
  have hlast {l : Lexeme} (hchunk : l.chunk = .plain l.text) : namesOf [l] = [] := namesOf_cons_of_plain hchunk []
  induction re with
  | union l r ihl ihr =>
      rw [lexemes, namesOf_append, namesOf_cons_of_plain rfl, namesOf_enclosed, namesOf_enclosed, ihl, ihr,
        references_union]
  | concat l r ihl ihr =>
      rw [lexemes, namesOf_append, namesOf_cons_of_plain rfl, namesOf_enclosed, namesOf_enclosed, ihl, ihr,
        references_concat]
  | compose l r ihl ihr =>
      rw [lexemes, namesOf_cons_of_plain rfl, namesOf_append, namesOf_cons_of_plain rfl, namesOf_append, ihl, ihr,
        hlast rfl, List.append_nil, references_compose]
  | diff l r ihl ihr =>
      rw [lexemes, namesOf_cons_of_plain rfl, namesOf_append, namesOf_cons_of_plain rfl, namesOf_append, ihl, ihr,
        hlast rfl, List.append_nil, references_diff]
  | kleene operand q ih =>
      rw [lexemes, namesOf_append, namesOf_enclosed, ih, hlast rfl, List.append_nil, references_kleene]
  | output input cs ih =>
      rw [lexemes, namesOf_append, namesOf_enclosed, ih, hlast rfl, List.append_nil, references_output]
  | set k => exact namesOf_runs (k.memberRuns a)
  | char c => rfl
  | str cs => rfl
  | var name => rfl

/-! ### Whole tables -/

/-- A definition with its line end. -/
def definitionChunks (a : Alphabet) (e : String × Re) : List Chunk :=
  .plain (e.1 ++ " = ") :: (e.2.lexemes a).map Lexeme.chunk ++ [.plain "\n"]

def tableChunks (a : Alphabet) (t : Table Re) : List Chunk := t.entries.flatMap (definitionChunks a)

theorem writeDefinition_eq (a : Alphabet) (e : String × Re) (u : Usages) :
    writeDefinition a e.1 e.2 u =
      (Printed.textOf (trace u (definitionChunks a e)), countsAfter u (definitionChunks a e)) := by
  have hcounts : countsAfter u (definitionChunks a e) = countsAfter u ((e.2.lexemes a).map Lexeme.chunk) := by
    rw [definitionChunks, countsAfter_append]
    rfl
  rw [hcounts, writeDefinition, write_eq, definitionChunks, trace_append, Printed.textOf_append, trace,
    Printed.textOf_cons]
  rfl

/-- The printer goes through the definitions with the counts that are left. -/
theorem foldl_writeDefinition (a : Alphabet) (entries : List (String × Re)) (written : String) (u : Usages) :
    entries.foldl (fun (acc : String × Usages) e =>
        let (line, remaining) := writeDefinition a e.1 e.2 acc.2
        (acc.1 ++ line, remaining)) (written, u) =
      (written ++ Printed.textOf (trace u (entries.flatMap (definitionChunks a))),
        countsAfter u (entries.flatMap (definitionChunks a))) := by
  induction entries generalizing written u with
  | nil => exact congrArg (·, u) String.append_empty.symm
  | cons e entries ih =>
      rw [List.foldl_cons, writeDefinition_eq, ih, List.flatMap_cons, trace_append, countsAfter_append,
        Printed.textOf_append, String.append_assoc]

/-- The run of the printer on a whole table. -/
def printTable (a : Alphabet) (t : Table Re) : List Printed := trace (Usages.ofTable t) (tableChunks a t)

theorem writeTable_eq (a : Alphabet) (t : Table Re) : writeTable a t = Printed.textOf (printTable a t) := by
  rw [writeTable, foldl_writeDefinition]
  exact String.empty_append

theorem names_definitionChunks (a : Alphabet) (e : String × Re) :
    (definitionChunks a e).filterMap Chunk.name? = e.2.references := by
  rw [definitionChunks, List.filterMap_append]
  exact (List.append_nil _).trans (namesOf_lexemes a e.2)

theorem names_tableChunks (a : Alphabet) (t : Table Re) :
    (tableChunks a t).filterMap Chunk.name? = t.entries.flatMap fun e => e.2.references := by
  rw [tableChunks, List.filterMap_flatMap]
  exact congrArg (t.entries.flatMap ·) (funext (names_definitionChunks a))

theorem cover_ofTable (a : Alphabet) (t : Table Re) :
    (Usages.ofTable t).Cover ((tableChunks a t).filterMap Chunk.name?) := by
  intro name
  rw [names_tableChunks, Usages.ofTable, count_ofReferences]

/-! ### Marks -/

/-- Taking a reference when the counts cover what is still to come: the mark tells whether the name comes again, and the
counts cover the rest. -/
theorem takeReference_of_cover {u : Usages} {name : String} {names : List String} (h : u.Cover (name :: names)) :
    ((takeReference u name).1 = true ↔ name ∈ names) ∧ (takeReference u name).2.Cover names := by
  have hcount : u.count name = names.count name + 1 := by
    rw [h name, List.count_cons_self]
  have hget : u.get? name = some (names.count name + 1) := by
    rw [count] at hcount
    cases hget : u.get? name with
    | none =>
        rw [hget] at hcount
        cases hcount
    | some n =>
        rw [hget] at hcount
        exact congrArg some hcount
  rw [takeReference, hget]
  constructor
  · rw [decide_eq_true_iff, ← List.count_pos_iff]
    exact Nat.lt_add_left_iff_pos
  · intro other
    rw [count_insert]
    by_cases hother : name = other
    · subst hother
      rw [if_pos rfl, Nat.add_sub_cancel]
    · rw [if_neg hother, h other, List.count_cons_of_ne hother]

/-- Where a reference is written, its mark tells whether the name comes again, and the count that is left is the number of
times it does. -/
theorem reference_of_trace {u : Usages} {cs : List Chunk} (h : u.Cover (cs.filterMap Chunk.name?))
    {before after : List Printed} {name : String} {marked : Bool} {left : Nat}
    (hsplit : trace u cs = before ++ .reference name marked left :: after) :
    (marked = true ↔ name ∈ Printed.names after) ∧ left = (Printed.names after).count name := by
  induction cs generalizing u before with
  | nil => exact absurd hsplit.symm (List.append_ne_nil_of_right_ne_nil _ (List.cons_ne_nil _ _))
  | cons c cs ih =>
      have hnext : (c.counts u).Cover (cs.filterMap Chunk.name?) := by
        cases c with
        | plain text => exact h
        | reference n => exact (takeReference_of_cover h).2
      rw [trace] at hsplit
      cases before with
      | cons p before => exact ih hnext (List.cons.inj hsplit).2
      | nil =>
          obtain ⟨hfirst, rfl⟩ := List.cons.inj hsplit
          cases c with
          | plain text => cases hfirst
          | reference n =>
              cases hfirst
              rw [names_trace]
              exact ⟨(takeReference_of_cover h).1, hnext name⟩

/-- Of the references to a name all but the last one are marked. -/
theorem marksOf_trace {u : Usages} {cs : List Chunk} (h : u.Cover (cs.filterMap Chunk.name?)) (name : String) :
    Printed.marksOf name (trace u cs) =
      if name ∈ cs.filterMap Chunk.name? then
        List.replicate ((cs.filterMap Chunk.name?).count name - 1) true ++ [false]
      else [] := by
  induction cs generalizing u with
  | nil => rfl
  | cons c cs ih =>
      cases c with
      | plain text => exact ih h
      | reference n =>
          obtain ⟨hmark, hnext⟩ := takeReference_of_cover h
          have hrest := ih hnext
          rw [Printed.marksOf] at hrest ⊢
          rw [trace, List.filterMap_cons]
          simp only [Chunk.print, Chunk.counts, List.filterMap_cons, Chunk.name?, hrest]
          by_cases hname : n = name
          · subst hname
            by_cases hmore : n ∈ cs.filterMap Chunk.name?
            · have hpos : 0 < (cs.filterMap Chunk.name?).count n := List.count_pos_iff.mpr hmore
              simp only [if_true, hmark.mpr hmore, if_pos hmore, List.mem_cons_self, List.count_cons_self,
                Nat.add_sub_cancel]
              rw [← List.cons_append, ← List.replicate_succ, Nat.sub_add_cancel hpos]
            · have hunmarked : (takeReference u n).1 = false := Bool.eq_false_iff.mpr (mt hmark.mp hmore)
              simp only [if_true, hunmarked, if_neg hmore, List.mem_cons_self, List.count_cons_self,
                List.count_eq_zero_of_not_mem hmore, Nat.zero_add, Nat.sub_self, List.replicate_zero, List.nil_append]
          · simp only [if_neg hname, List.mem_cons, Ne.symm hname, false_or, List.count_cons_of_ne hname]

/-- Sharing marks are exact, whatever the names and the values of a table are. The text of a table is a run of the
printer, which writes the references of all values in their order. A reference is marked precisely when the same name
is written again later, and the printer's count of its name is down to zero precisely when it is not. The usage counts
are the numbers of references, and of the references to a name all are marked but the last one. -/
theorem sharing_marks_exact (a : Alphabet) (t : Table Re) :
    writeTable a t = Printed.textOf (printTable a t) ∧
      Printed.names (printTable a t) = (t.entries.flatMap fun e => e.2.references) ∧
      (∀ before name marked left after, printTable a t = before ++ .reference name marked left :: after →
        (marked = true ↔ name ∈ Printed.names after) ∧ (left = 0 ↔ name ∉ Printed.names after)) ∧
      (∀ name, (Usages.ofTable t).count name = (Printed.names (printTable a t)).count name) ∧
      ∀ name ∈ Printed.names (printTable a t), Printed.marksOf name (printTable a t) =
        List.replicate ((Printed.names (printTable a t)).count name - 1) true ++ [false] := by
  have hcover := cover_ofTable a t
  have hnames : Printed.names (printTable a t) = (tableChunks a t).filterMap Chunk.name? := names_trace _ _
  refine ⟨writeTable_eq a t, hnames.trans (names_tableChunks a t), ?_, ?_, ?_⟩
  · intro before name marked left after hsplit
    obtain ⟨hmarked, hleft⟩ := reference_of_trace hcover hsplit
    refine ⟨hmarked, ?_⟩
    rw [hleft]
    exact List.count_eq_zero
  · intro name
    rw [hnames]
    exact hcover name
  · intro name hname
    rw [hnames] at hname ⊢
    exact (marksOf_trace hcover name).trans (if_pos hname)

/-- A name that is referred to in two definitions, one of which is its own, and a name that nothing defines. -/
theorem sharing_marks_exact_of_two_definitions :
    let t : Table Re :=
      ⟨[("s", .union (.var "s") (.var "x")), ("t", .concat (.concat (.var "s") (.var "s")) (.var "x"))]⟩
    Printed.marksOf "s" (printTable .unicode t) = [true, true, false] ∧
      Printed.marksOf "x" (printTable .unicode t) = [true, false] := by
  intro t
  obtain ⟨-, hnames, -, -, hmarks⟩ := sharing_marks_exact .unicode t
  have hreferences : (t.entries.flatMap fun e => e.2.references) = ["s", "x", "s", "s", "x"] := rfl
  rw [hnames, hreferences] at hmarks
  exact ⟨hmarks "s" (by decide), hmarks "x" (by decide)⟩

end Re

end Transducer
