import Transducer.Literal.Quoted

/-!
# Reading literals back

A reader for the two written forms of literals. Between quotes a backslash takes the next character with it, so the
first quote that is left over closes the literal; between angle brackets numbers end at whatever is no digit. The
reader returns the code points of a literal together with the text behind it, whatever that text is.
-/

namespace Transducer.Literal

/-! ### Quoted literals -/

/-- The code point that a character stands for behind a backslash. -/
def unescaped (c : Char) : CodePoint :=
  if c = 'n' then 0x0A
  else if c = 'r' then 0x0D
  else if c = 't' then 0x09
  else if c = 'b' then 0x08
  else if c = '0' then 0
  else c.toNat

/-- Reads on behind an opening quote, or behind a backslash that stands there. -/
def readQuoted : Bool → List Char → Option (List CodePoint × List Char)
  | _, [] => none
  | true, c :: cs => (readQuoted false cs).map fun r => (unescaped c :: r.1, r.2)
  | false, c :: cs =>
      if c = '\x27' then some ([], cs)
      else if c = '\\' then readQuoted true cs
      else (readQuoted false cs).map fun r => (c.toNat :: r.1, r.2)

theorem isValidChar_of_isPrintable {c : CodePoint} (h : isPrintable c = true) : c.isValidChar := by
  simp only [isPrintable, isPlainWhite, Bool.or_eq_true, Bool.and_eq_true, beq_iff_eq, decide_eq_true_eq] at h
  obtain (((((rfl | rfl) | rfl) | rfl) | rfl) | rfl) | ⟨⟨⟨hvalid, -⟩, -⟩, -⟩ := h
  all_goals first | decide | exact hvalid

/-- One code point between quotes: a backslash with the character for it, or a character that stands for itself. -/
theorem toList_escaped {c : CodePoint} (h : isPrintable c = true) :
    (∃ d, (escaped c).toList = ['\\', d] ∧ unescaped d = c) ∨
      ∃ d, (escaped c).toList = [d] ∧ d ≠ '\x27' ∧ d ≠ '\\' ∧ d.toNat = c := by
  unfold escaped
  split
  · exact .inl ⟨'n', by decide, by subst c; decide⟩
  split
  · exact .inl ⟨'r', by decide, by subst c; decide⟩
  split
  · exact .inl ⟨'t', by decide, by subst c; decide⟩
  split
  · exact .inl ⟨'b', by decide, by subst c; decide⟩
  split
  · exact .inl ⟨'0', by decide, by subst c; decide⟩
  split
  · exact .inl ⟨'\x27', by decide, by subst c; decide⟩
  split
  · exact .inl ⟨'\\', by decide, by subst c; decide⟩
  · rename_i hquote hbackslash
    have hvalid := isValidChar_of_isPrintable h
    have hnat : (Char.ofNat c).toNat = c := by
      rw [Char.ofNat, dif_pos hvalid]
      rfl
    refine .inr ⟨Char.ofNat c, ?_, ?_, ?_, hnat⟩
    · rw [CodePoint.toChar, if_pos hvalid, String.toList_singleton]
    · intro heq
      rw [heq] at hnat
      exact hquote hnat.symm
    · intro heq
      rw [heq] at hnat
      exact hbackslash hnat.symm

/-- Escaped code points are read up to the quote behind them. -/
theorem readQuoted_escaped {cs : List CodePoint} (h : cs.all isPrintable = true) (rest : List Char) :
    readQuoted false ((cs.flatMap fun c => (escaped c).toList) ++ '\x27' :: rest) = some (cs, rest) := by
  induction cs with
  | nil => rfl
  | cons c cs ih =>
      obtain ⟨hc, hcs⟩ := Bool.and_eq_true_iff.mp (List.all_cons.symm.trans h)
      obtain ⟨d, hd, hvalue⟩ | ⟨d, hd, hquote, hbackslash, hvalue⟩ := toList_escaped hc
      · have hplain : ¬ ('\\' : Char) = '\x27' := by decide
        rw [List.flatMap_cons, hd, List.append_assoc, List.cons_append, List.singleton_append, readQuoted,
          if_neg hplain, if_pos rfl, readQuoted, ih hcs, Option.map_some, hvalue]
      · rw [List.flatMap_cons, hd, List.append_assoc, List.singleton_append, readQuoted, if_neg hquote,
          if_neg hbackslash, ih hcs, Option.map_some, hvalue]

theorem toList_quoted (cs : List CodePoint) :
    (quoted cs).toList = '\x27' :: ((cs.flatMap fun c => (escaped c).toList) ++ ['\x27']) := by
  rw [quoted, String.toList_append, String.toList_append, String.toList_join, List.flatMap_map]
  rfl

/-! ### Numbers -/

/-- Reads numbers on behind an opening angle bracket: the numbers, and whether a dash stands between them. The digits
of the next number so far have the value `n`. -/
def readNumbers (n : Nat) : List Char → Option (List CodePoint × Bool × List Char)
  | [] => none
  | c :: cs =>
      if c = '>' then some ([n], false, cs)
      else if c = ' ' then (readNumbers 0 cs).map fun r => (n :: r.1, r.2)
      else if c = '-' then (readNumbers 0 cs).map fun r => (n :: r.1, true, r.2.2)
      else readNumbers (10 * n + (c.toNat - '0'.toNat)) cs

theorem readNumbers_digits {ds : List Char} (h : ∀ d ∈ ds, d.isDigit = true) (n : Nat) (rest : List Char) :
    readNumbers n (ds ++ rest) = readNumbers (Nat.ofDigitChars 10 ds n) rest := by
  induction ds generalizing n with
  | nil => rfl
  | cons d ds ih =>
      obtain ⟨hd, hds⟩ := List.forall_mem_cons.mp h
      have hne {c : Char} (hc : c.isDigit = false) : d ≠ c := by
        rintro rfl
        rw [hc] at hd
        cases hd
      rw [List.cons_append, readNumbers, if_neg (hne (by decide)), if_neg (hne (by decide)), if_neg (hne (by decide)),
        ih hds]
      rfl

theorem readNumbers_repr (n : Nat) (rest : List Char) :
    readNumbers 0 ((toString n).toList ++ rest) = readNumbers n rest := by
  have hdigits : (toString n).toList = Nat.toDigits 10 n := String.toList_ofList
  rw [hdigits, readNumbers_digits (fun d hd => Nat.isDigit_of_mem_toDigits (by decide) (by decide) hd),
    Nat.ofDigitChars_ten_toDigits]

/-- Numbers with blanks between them are read up to the bracket behind them. -/
theorem readNumbers_blanks {cs : List CodePoint} (h : cs ≠ []) (rest : List Char) :
    readNumbers 0 ([' '].intercalate (cs.map fun c : Nat => (toString c).toList) ++ '>' :: rest) =
      some (cs, false, rest) := by
  induction cs with
  | nil => exact absurd rfl h
  | cons c cs ih =>
      cases cs with
      | nil =>
          rw [List.map_cons, List.map_nil, List.intercalate_singleton, readNumbers_repr]
          rfl
      | cons d cs =>
          have hrest := ih (List.cons_ne_nil d cs)
          rw [List.map_cons] at hrest
          rw [List.map_cons, List.map_cons, List.intercalate_cons_cons, List.append_assoc, List.append_assoc,
            readNumbers_repr]
          exact congrArg (Option.map _) hrest

theorem readNumbers_dash (low high : CodePoint) (rest : List Char) :
    readNumbers 0 ((toString low).toList ++ '-' :: ((toString high).toList ++ '>' :: rest)) =
      some ([low, high], true, rest) := by
  have hhigh : readNumbers 0 ((toString high).toList ++ '>' :: rest) = some ([high], false, rest) :=
    readNumbers_repr high _
  rw [readNumbers_repr]
  exact congrArg (Option.map _) hhigh

theorem toList_numbered (cs : List CodePoint) :
    (numbered cs).toList = '<' :: ([' '].intercalate (cs.map fun c : Nat => (toString c).toList) ++ ['>']) := by
  rw [numbered, String.toList_append, String.toList_append, String.toList_intercalate, List.map_map]
  rfl

/-! ### Literals -/

/-- Reads a literal in either form. -/
def read? : List Char → Option (List CodePoint × List Char)
  | [] => none
  | c :: cs =>
      if c = '\x27' then readQuoted false cs
      else if c = '<' then (readNumbers 0 cs).map fun r => (r.1, r.2.2)
      else none

theorem ne_nil_of_not_printable {cs : List CodePoint} (h : ¬ cs.all isPrintable = true) : cs ≠ [] := by
  rintro rfl
  exact h rfl

theorem read?_text (cs : List CodePoint) (rest : List Char) : read? ((text cs).toList ++ rest) = some (cs, rest) := by
  have hne : ¬ ('<' : Char) = '\x27' := by decide
  unfold text
  split
  · rename_i hprintable
    rw [toList_quoted, List.cons_append, List.append_assoc, read?, if_pos rfl]
    exact readQuoted_escaped hprintable rest
  · rename_i hprintable
    rw [toList_numbered, List.cons_append, List.append_assoc, read?, if_neg hne, if_pos rfl]
    exact congrArg (Option.map _) (readNumbers_blanks (ne_nil_of_not_printable hprintable) rest)

end Transducer.Literal
