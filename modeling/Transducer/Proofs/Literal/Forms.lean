import Transducer.Proofs.Literal.Decoding
import Transducer.Proofs.Token.Contents

/-!
# The two forms of a literal

A written literal is read back as the code points it was written for, so no two sequences are written alike. Which form
it has can be told from the text alone. Between quotes every quote is escaped but the closing one, and none of the white
characters that have an escape stands for itself; between angle brackets there are numerals, at least one.
-/

namespace Transducer.Literal

/-- Line feed, carriage return, tab, backspace and NUL, which are only written by their escapes. -/
def rawWhite : List Char := ['\n', '\r', '\t', '\x08', '\x00']

/-- Quotes around a body. The closing one is the first quote that is not behind an escaping backslash. -/
structure QuotedForm (s : String) (body : List Char) : Prop where
  text_eq : s.toList = '\x27' :: (body ++ ['\x27'])
  escaped_of_quote : ∀ i, body[i]? = some '\x27' → ∃ j, i = j + 1 ∧ (escaping false body)[j]? = some true
  closes : (escaping false body).getLast? ≠ some true
  not_raw : ∀ c ∈ body, c ∉ rawWhite

/-- A numeral in decimal digits, and its value. -/
structure Decimal (digits : List Char) (n : Nat) : Prop where
  ne_nil : digits ≠ []
  isDigit : ∀ d ∈ digits, d.isDigit = true
  value : Nat.ofDigitChars 10 digits 0 = n

/-- Angle brackets around numerals, with a blank between any two. -/
structure NumberedForm (s : String) (numerals : List (List Char)) (cs : List CodePoint) : Prop where
  text_eq : s.toList = '<' :: ([' '].intercalate numerals ++ ['>'])
  ne_nil : numerals ≠ []
  decimal : List.Forall₂ Decimal numerals cs

/-! ### Quoted literals -/

theorem not_raw_of_mem_escaped {c : CodePoint} (h : isPrintable c = true) :
    ∀ d ∈ (escaped c).toList, d ∉ rawWhite := by
  unfold escaped
  split
  · simp [rawWhite]
  split
  · simp [rawWhite]
  split
  · simp [rawWhite]
  split
  · simp [rawWhite]
  split
  · simp [rawWhite]
  split
  · simp [rawWhite]
  split
  · simp [rawWhite]
  · rename_i hline hreturn htab hback hnul _ _
    have hvalid := isValidChar_of_isPrintable h
    have hnat : (Char.ofNat c).toNat = c := by
      rw [Char.ofNat, dif_pos hvalid]
      rfl
    intro d hd hraw
    rw [CodePoint.toChar, if_pos hvalid, String.toList_singleton, List.mem_singleton] at hd
    subst hd
    simp only [rawWhite, List.mem_cons, List.not_mem_nil, or_false] at hraw
    obtain heq | heq | heq | heq | heq := hraw
    · exact hline (by rw [← hnat, heq]; rfl)
    · exact hreturn (by rw [← hnat, heq]; rfl)
    · exact htab (by rw [← hnat, heq]; rfl)
    · exact hback (by rw [← hnat, heq]; rfl)
    · exact hnul (by rw [← hnat, heq]; rfl)

/-- What stands between the quotes is the content of a string. -/
theorem content_escaped {cs : List CodePoint} (h : cs.all isPrintable = true) :
    Pattern.Content '\x27' (cs.flatMap fun c => (escaped c).toList) := by
  induction cs with
  | nil => exact .nil
  | cons c cs ih =>
      obtain ⟨hc, hcs⟩ := Bool.and_eq_true_iff.mp (List.all_cons.symm.trans h)
      rw [List.flatMap_cons]
      obtain ⟨d, hd, -⟩ | ⟨d, hd, hquote, hbackslash, -⟩ := toList_escaped hc
      · have hline : d ≠ '\n' := by
          rintro rfl
          exact not_raw_of_mem_escaped hc '\n' (by simp [hd]) (by decide)
        rw [hd]
        exact .escape hline (ih hcs)
      · rw [hd]
        exact .plain hquote hbackslash (ih hcs)

theorem getLast?_escaping {quote : Char} {w : List Char} (h : Pattern.Content quote w) :
    (escaping false w).getLast? ≠ some true := by
  induction h with
  | nil => simp [escaping]
  | @plain c w _ hslash _ ih =>
      rw [escaping_plain hslash, List.getLast?_cons]
      cases hlast : (escaping false w).getLast? with
      | none => simp
      | some mark => simpa [hlast] using ih
  | @escape c w _ _ ih =>
      rw [escaping_escape, List.getLast?_cons_cons, List.getLast?_cons]
      cases hlast : (escaping false w).getLast? with
      | none => simp
      | some mark => simpa [hlast] using ih

theorem quotedForm_text {cs : List CodePoint} (h : cs.all isPrintable = true) :
    QuotedForm (text cs) (cs.flatMap fun c => (escaped c).toList) where
  text_eq := by rw [text, if_pos h, toList_quoted]
  escaped_of_quote := fun _ hi => (content_escaped h).escaping_of_quote hi (by decide)
  closes := getLast?_escaping (content_escaped h)
  not_raw := by
    intro d hd
    obtain ⟨c, hc, hd⟩ := List.mem_flatMap.mp hd
    exact not_raw_of_mem_escaped (List.all_eq_true.mp h c hc) d hd

/-! ### Numbers -/

theorem decimal_toDigits (n : Nat) : Decimal (toString n).toList n := by
  have hdigits : (toString n).toList = Nat.toDigits 10 n := String.toList_ofList
  rw [hdigits]
  exact ⟨Nat.toDigits_ne_nil, fun d hd => Nat.isDigit_of_mem_toDigits (by decide) (by decide) hd,
    Nat.ofDigitChars_ten_toDigits⟩

theorem numberedForm_text {cs : List CodePoint} (h : ¬ cs.all isPrintable = true) :
    NumberedForm (text cs) (cs.map fun c : Nat => (toString c).toList) cs where
  text_eq := by rw [text, if_neg h, toList_numbered]
  ne_nil := by simpa using ne_nil_of_not_printable h
  decimal := by
    apply List.forall₂_map_left_iff.mpr
    exact List.forall₂_same.mpr fun c _ => decimal_toDigits c

/-! ### Literals -/

theorem QuotedForm.not_numberedForm {s : String} {body : List Char} {numerals : List (List Char)} {cs : List CodePoint}
    (hquoted : QuotedForm s body) (hnumbered : NumberedForm s numerals cs) : False := by
  have hfirst := congrArg List.head? (hquoted.text_eq.symm.trans hnumbered.text_eq)
  simp at hfirst

/-- Literals can be read back. Every sequence of code points is read back from what is written for it, so different
sequences are written differently. A literal is quoted if all of its code points are printable, and otherwise it
consists of numbers, of which there is at least one. -/
theorem literals_decodable :
    Function.Injective text ∧
      ∀ cs, read? (text cs).toList = some (cs, []) ∧
        (cs.all isPrintable = true ↔ ∃ body, QuotedForm (text cs) body) ∧
        (cs.all isPrintable = false ↔ ∃ numerals, NumberedForm (text cs) numerals cs) := by
  have hread (cs : List CodePoint) : read? (text cs).toList = some (cs, []) := by
    simpa using read?_text cs []
  refine ⟨fun cs ds heq => ?_, fun cs => ⟨hread cs, ⟨fun h => ⟨_, quotedForm_text h⟩, ?_⟩,
    ⟨fun h => ⟨_, numberedForm_text (Bool.eq_false_iff.mp h)⟩, ?_⟩⟩⟩
  · have hsame := hread cs
    rw [heq, hread ds] at hsame
    simpa using hsame.symm
  · rintro ⟨body, hquoted⟩
    by_contra hnot
    exact hquoted.not_numberedForm (numberedForm_text hnot)
  · rintro ⟨numerals, hnumbered⟩
    by_contra hnot
    exact (quotedForm_text (eq_true_of_ne_false hnot)).not_numberedForm hnumbered

end Transducer.Literal
