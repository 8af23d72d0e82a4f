import Transducer.Proofs.Token.LongestMatch

/-!
# Where a string without its closing quote ends

Such a string is meant to take the rest of the source. It does, but for one case: a backslash that stands at the end of
the source or of a line has nothing to escape, and no content goes on over it. The string ends in front of this
backslash, which becomes garbage, and the next line is divided into tokens of its own. So there can be a string of this
kind in every line, and a source without such backslashes has one at most.
-/

namespace Transducer

/-- The text starts with a backslash that has nothing to escape. -/
def StrayBackslash (cs : List Char) : Prop := cs = ['\\'] ∨ ['\\', '\n'] <+: cs

instance : DecidablePred StrayBackslash := fun cs => inferInstanceAs (Decidable (cs = ['\\'] ∨ ['\\', '\n'] <+: cs))

namespace Rule

/-- Content ends with the text, at a quote, or in front of a backslash that has nothing to escape. -/
theorem contentLength_stops (quote : Char) (cs : List Char) :
    cs.drop (contentLength quote cs) = [] ∨ (∃ rest, cs.drop (contentLength quote cs) = quote :: rest) ∨
      StrayBackslash (cs.drop (contentLength quote cs)) := by
  -- A plain character and an escape leave it to what is behind them; the other cases are the ways to end.
  fun_induction contentLength quote cs with
  | case1 => exact .inl rfl
  | case2 => exact .inr (.inr (.inl rfl))
  | case3 cs => exact .inr (.inr (.inr ⟨cs, rfl⟩))
  | case4 c cs hc ih => exact ih
  | case5 cs _ => exact .inr (.inl ⟨cs, rfl⟩)
  | case6 c cs _ hc ih => exact ih

/-- If a closing quote followed, the string would be complete and one character longer. -/
theorem stray_of_unterminated {quote : Char} {cs : List Char} {n : Nat} (h : unterminated quote cs = some n)
    (hlongest : ∀ m, complete quote cs = some m → m ≤ n) : cs.drop n = [] ∨ StrayBackslash (cs.drop n) := by
  cases cs with
  | nil => cases h
  | cons c cs =>
      rw [unterminated] at h
      split at h
      · rename_i hquote
        cases h
        rw [List.drop_succ_cons]
        refine (contentLength_stops quote cs).imp_right fun hstops => hstops.resolve_left ?_
        rintro ⟨rest, hrest⟩
        have hclosed : cs[contentLength quote cs]? = some quote := by
          rw [← Nat.add_zero (contentLength quote cs), ← List.getElem?_drop, hrest]
          rfl
        have hle := hlongest _ (if_pos ⟨hquote, hclosed⟩)
        omega
      · cases h

theorem unterminated_of_mem_all : ∀ r ∈ all, r.kind = .unterminatedStr →
    r.match? = unterminated '\x22' ∨ r.match? = unterminated '\x27' := by
  simp [all]

theorem stray_of_best {cs : List Char} {n : Nat} (h : best cs = some (.unterminatedStr, n)) :
    cs.drop n = [] ∨ StrayBackslash (cs.drop n) := by
  obtain ⟨r, hr, hkind, hmatch⟩ := mem_of_longest h
  have hlongest {quote : Char} (hmem : ⟨.stringLiteral, complete quote⟩ ∈ all) (m : Nat)
      (hm : complete quote cs = some m) : m ≤ n := by
    obtain ⟨kind, k, hbest, hle⟩ := le_of_longest hmem hm
    cases h.symm.trans hbest
    exact hle
  rcases unterminated_of_mem_all r hr hkind with hrule | hrule
  · exact stray_of_unterminated (hrule ▸ hmatch) (hlongest (by simp [all]))
  · exact stray_of_unterminated (hrule ▸ hmatch) (hlongest (by simp [all]))

end Rule

namespace Lexed

variable {cs : List Char} {ts before after : List Token} {t : Token}

/-- A string without its closing quote is a match of its own. -/
theorem of_unterminated (h : Lexed cs (t :: after)) (ht : t.kind = .unterminatedStr) :
    ∃ n, Rule.best cs = some (.unterminatedStr, n) ∧ Lexed (cs.drop n) after := by
  generalize hts : t :: after = ts at h
  cases h with
  | nil => cases hts
  | @found _ ts kind n hbest hrest =>
      by_cases hkind : kind = .stringLiteral
      · obtain ⟨first, rest, hfirst⟩ := List.exists_cons_of_ne_nil (Token.ofMatch_ne_nil hbest)
        rw [hfirst, List.cons_append] at hts
        obtain ⟨rfl, -⟩ := List.cons.inj hts
        have hmem : t ∈ Token.ofMatch kind (cs.take n) := hfirst ▸ List.mem_cons_self
        rw [Token.ofMatch, if_pos hkind] at hmem
        have hpart := Token.isStringPart_of_mem_splitString hmem
        rw [ht] at hpart
        cases hpart
      · rw [Token.ofMatch, if_neg hkind, List.singleton_append] at hts
        obtain ⟨rfl, rfl⟩ := List.cons.inj hts
        cases ht
        exact ⟨n, hbest, hrest⟩
  | unmatched _ _ _ _ =>
      obtain ⟨rfl, -⟩ := List.cons.inj hts
      cases ht

theorem nil_or_stray (h : Lexed cs (before ++ t :: after)) (ht : t.kind = .unterminatedStr) :
    after = [] ∨ StrayBackslash (Token.charsOf after) ∧ Lexed (Token.charsOf after) after := by
  have hbefore : Paired before := h.paired.front (by rw [ht]; rfl)
  obtain ⟨n, hbest, hrest⟩ := (h.behind hbefore).of_unterminated ht
  rcases Rule.stray_of_best hbest with hnil | hstray
  · rw [hnil] at hrest
    exact .inl hrest.eq_nil
  · rw [← hrest.charsOf_eq] at hstray hrest
    exact .inr ⟨hstray, hrest⟩

theorem eq_nil_of_forall_not_stray (h : Lexed cs (before ++ t :: after)) (ht : t.kind = .unterminatedStr)
    (hnone : ∀ ds, ds <:+ cs → ¬ StrayBackslash ds) : after = [] := by
  have hbehind : Token.charsOf after <:+ cs := by
    rw [← h.charsOf_eq, ← List.singleton_append, ← List.append_assoc, Token.charsOf_append]
    exact List.suffix_append _ _
  exact (h.nil_or_stray ht).resolve_right fun hstray => hnone _ hbehind hstray.1

/-- A backslash that has nothing to escape becomes garbage, and the line end behind it a token. -/
theorem of_stray (h : Lexed cs ts) (hstray : StrayBackslash cs) :
    ts = [⟨.garbage, "\\"⟩] ∨ ∃ rest, ts = ⟨.garbage, "\\"⟩ :: ⟨.newline, "\n"⟩ :: rest := by
  have hnone (ds : List Char) : ∀ i < ['\\'].length, Rule.best ((['\\'] ++ ds).drop i) = none := by
    intro i hi
    cases Nat.lt_one_iff.mp hi
    rfl
  have hne : ['\\'] ≠ [] := List.cons_ne_nil _ _
  rcases hstray with rfl | ⟨ds, rfl⟩
  · exact .inl (h.unique (unmatched hne (hnone []) (.inl rfl) nil))
  · have hbest : Rule.best ('\n' :: ds) = some (.newline, 1) := rfl
    have hbehind := lexed_lex (String.ofList ds)
    rw [String.toList_ofList] at hbehind
    have hnewline := found hbest hbehind
    exact .inr ⟨_, h.unique (unmatched hne (hnone ('\n' :: ds)) (.inr (by simp [hbest])) hnewline)⟩

end Lexed

variable {before after : List Token} {t : Token}

/-- A token reaches to the end of the source if and only if no token follows it. -/
theorem ends_iff_eq_nil {source : String} (h : lex source = before ++ t :: after) :
    Token.totalWidth before + t.width = source.utf8ByteSize ↔ after = [] := by
  have hwidth : source.utf8ByteSize = Token.totalWidth before + (t.width + Token.totalWidth after) := by
    rw [← Token.totalWidth_cons, ← Token.totalWidth_append, ← h, ← Token.utf8ByteSize_join, join_text_lex]
  constructor
  · intro hend
    cases after with
    | nil => rfl
    | cons u after =>
        have hu : u ∈ lex source := by simp [h]
        have hpos := Token.width_pos ((lexed_lex source).genuine hu).text_ne
        rw [Token.totalWidth_cons] at hwidth
        omega
  · rintro rfl
    rw [Token.totalWidth_nil] at hwidth
    omega

/-- Where a string without its closing quote ends. It takes the rest of the source if and only if no backslash that has
nothing to escape follows it. If one follows it, this backslash is the last token, or a line end comes behind it. So in a
source without such backslashes there is at most one string of this kind, and it is the last token. -/
theorem unterminated_string_ends {source : String} (h : lex source = before ++ t :: after)
    (ht : t.kind = .unterminatedStr) :
    (Token.totalWidth before + t.width = source.utf8ByteSize ↔ ¬ StrayBackslash (Token.charsOf after)) ∧
      (after = [] ∨ after = [⟨.garbage, "\\"⟩] ∨ ∃ rest, after = ⟨.garbage, "\\"⟩ :: ⟨.newline, "\n"⟩ :: rest) ∧
      ((∀ cs, cs <:+ source.toList → ¬ StrayBackslash cs) →
        Token.totalWidth before + t.width = source.utf8ByteSize ∧ after = [] ∧
          ∀ u ∈ before, u.kind ≠ .unterminatedStr) := by
  have hlexed : Lexed source.toList (before ++ t :: after) := h ▸ lexed_lex source
  refine ⟨?_, ?_, fun hnone => ?_⟩
  · rw [ends_iff_eq_nil h]
    constructor
    · rintro rfl
      decide
    · intro hnone
      exact (hlexed.nil_or_stray ht).resolve_right fun hstray => hnone hstray.1
  · exact (hlexed.nil_or_stray ht).imp_right fun hstray => hstray.2.of_stray hstray.1
  · have hnil := hlexed.eq_nil_of_forall_not_stray ht hnone
    refine ⟨(ends_iff_eq_nil h).mpr hnil, hnil, fun u hu hkind => ?_⟩
    -- Nothing would follow a string of this kind in front of the token, and the token does.
    obtain ⟨front, back, rfl⟩ := List.append_of_mem hu
    rw [List.append_assoc, List.cons_append] at hlexed
    have hfollowing := hlexed.eq_nil_of_forall_not_stray hkind hnone
    exact List.append_ne_nil_of_right_ne_nil _ (List.cons_ne_nil _ _) hfollowing

/-- An escaped quote closes no string, and its backslash is not stray. -/
theorem unterminated_string_ends_behind_escaped_quote :
    let before : List Token := [⟨.id, "x"⟩, ⟨.equals, "="⟩]
    let t : Token := ⟨.unterminatedStr, "'\\'a"⟩
    lex "x='\\'a" = before ++ [t] ∧ (∀ cs, cs <:+ "x='\\'a".toList → ¬ StrayBackslash cs) ∧
      Token.totalWidth before + t.width = "x='\\'a".utf8ByteSize ∧ ∀ u ∈ before, u.kind ≠ .unterminatedStr := by
  intro before t
  have hlex : lex "x='\\'a" = before ++ [t] := by decide
  have hnone : ∀ cs, cs <:+ "x='\\'a".toList → ¬ StrayBackslash cs := by
    simp only [← List.mem_tails]
    decide
  obtain ⟨-, -, hlast⟩ := unterminated_string_ends hlex rfl
  obtain ⟨hend, -, hbefore⟩ := hlast hnone
  exact ⟨hlex, hnone, hend, hbefore⟩

/-- Two lines with a string without its closing quote in each of them. The first one ends in front of a backslash, so it
does not reach to the end of the source. -/
theorem unterminated_string_in_each_line :
    lex "'a\\\n\"b" =
        [⟨.unterminatedStr, "'a"⟩, ⟨.garbage, "\\"⟩, ⟨.newline, "\n"⟩, ⟨.unterminatedStr, "\"b"⟩] ∧
      ¬ ∀ (source : String) (before after : List Token) (t : Token), lex source = before ++ t :: after →
        t.kind = .unterminatedStr → Token.totalWidth before + t.width = source.utf8ByteSize := by
  have hlex : lex "'a\\\n\"b" =
      [⟨.unterminatedStr, "'a"⟩, ⟨.garbage, "\\"⟩, ⟨.newline, "\n"⟩, ⟨.unterminatedStr, "\"b"⟩] := by decide
  refine ⟨hlex, fun hends => ?_⟩
  have hend := hends "'a\\\n\"b" [] _ ⟨.unterminatedStr, "'a"⟩ hlex rfl
  revert hend
  decide

end Transducer
