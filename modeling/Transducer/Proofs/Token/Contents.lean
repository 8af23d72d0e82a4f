import Transducer.Proofs.Literal.Grammar
import Transducer.Proofs.Token.LongestMatch

/-!
# The contents of strings

The lexer and the reader of literals both go through escapes, but not in the same way. The lexer pairs every backslash
with the next character, and the reader does not do so inside of brackets. They can get out of step only if there is a
backslash inside of brackets, and that is no digit: the reader fails there. So as long as it goes on, what is left to be
read is content of a string by itself, and content never is a single backslash.
-/

namespace Transducer

open Pattern

variable {quote c : Char} {w cs : List Char}

/-! ### Quotes -/

/-- Which characters are backslashes that escape the next one. A backslash does unless it is escaped itself. -/
def escaping (escaped : Bool) : List Char → List Bool
  | [] => []
  | c :: cs => (c == '\\' && !escaped) :: escaping (c == '\\' && !escaped) cs

theorem escaping_plain (hslash : c ≠ '\\') : escaping false (c :: w) = false :: escaping false w := by
  rw [escaping, beq_eq_false_iff_ne.mpr hslash, Bool.false_and]

theorem escaping_escape : escaping false ('\\' :: c :: w) = true :: false :: escaping false w := by
  rw [escaping, escaping, beq_self_eq_true, Bool.not_false, Bool.true_and, Bool.not_true, Bool.and_false]

namespace Pattern.Content

/-- A quote inside the content stands behind a backslash of its own. -/
theorem escaping_of_quote (h : Content quote w) {i : Nat} (hi : w[i]? = some quote) (hquote : quote ≠ '\\') :
    ∃ j, i = j + 1 ∧ (escaping false w)[j]? = some true := by
  induction h generalizing i with
  | nil => cases hi
  | @plain c w hc hslash _ ih =>
      rw [escaping_plain hslash]
      cases i with
      | zero => exact absurd (Option.some.inj hi) hc
      | succ i =>
          obtain ⟨j, rfl, hj⟩ := ih hi
          exact ⟨j + 1, rfl, hj⟩
  | @escape c w hc _ ih =>
      rw [escaping_escape]
      match i with
      | 0 => exact absurd (Option.some.inj hi).symm hquote
      | 1 => exact ⟨0, rfl, rfl⟩
      | i + 2 =>
          obtain ⟨j, rfl, hj⟩ := ih hi
          exact ⟨j + 2, rfl, hj⟩

/-! ### Items of literals -/

/-- Characters that are no backslashes are items of their own. -/
theorem of_append (h : Content quote (cs ++ w)) (hcs : '\\' ∉ cs) : Content quote w := by
  induction cs with
  | nil => exact h
  | cons c cs ih =>
      obtain ⟨hc, hcs⟩ := not_or.mp (mt List.mem_cons.mpr hcs)
      rw [List.cons_append] at h
      generalize hrest : cs ++ w = rest at h
      cases h with
      | plain _ _ h => exact ih (hrest ▸ h) hcs
      | escape _ _ => exact absurd rfl hc

end Pattern.Content

namespace Literal

theorem not_mem_of_digits {b : Base} {ds : List Char} {n : Nat} (h : Digits b ds n) : '\\' ∉ ds := by
  intro hmem
  obtain ⟨-, hall, -⟩ := digits_iff.mp h
  cases List.all_eq_true.mp hall '\\' hmem

theorem not_mem_of_numeral {ds : List Char} {n : Nat} (h : Numeral ds n) : '\\' ∉ ds := by
  cases h with
  | lowerHex h => simp [not_mem_of_digits h]
  | upperHex h => simp [not_mem_of_digits h]
  | zero => decide
  | octal h => simp [not_mem_of_digits h]
  | decimal h _ => exact not_mem_of_digits h

theorem Item.content {item : List Char} {v : CodePoint} (h : Item item v) (hcontent : Content quote (item ++ w)) :
    Content quote w := by
  cases h with
  | plain hslash _ => exact hcontent.of_append fun hmem => hslash (List.mem_singleton.mp hmem).symm
  | escaped c =>
      cases hcontent with
      | plain _ hslash _ => exact absurd rfl hslash
      | escape _ h => exact h
  | numeric _ hds _ =>
      refine hcontent.of_append fun hmem => ?_
      simp [not_mem_of_numeral hds] at hmem

theorem Spells.content {front : List Char} {vs : List CodePoint} (h : Spells front vs)
    (hcontent : Content quote (front ++ w)) : Content quote w := by
  induction h with
  | nil => exact hcontent
  | cons hitem _ ih =>
      rw [List.append_assoc] at hcontent
      exact ih (hitem.content hcontent)

/-- The reader does not stop at a backslash in the end: it would be content. -/
theorem not_dangling_of_content {raw : String} (h : Content quote raw.toList) {e : EscapeError}
    (he : unescape raw = .error e) : e.fault ≠ .dangling := by
  intro hfault
  obtain ⟨front, back, rfl, -, -, ⟨vs, hfront⟩, hmalformed⟩ := unescape_eq_error_iff.mp he
  rw [String.toList_append, String.toList_append, List.append_assoc] at h
  have hcontent := (unescape_eq_ok_iff.mp hfront).content h
  rw [hfault] at hmalformed
  generalize e.text.toList = item at hmalformed hcontent
  generalize back.toList = behind at hmalformed hcontent
  cases hmalformed
  cases hcontent with
  | plain _ hslash _ => exact hslash rfl

end Literal

/-! ### Tokens -/

variable {ts before after : List Token} {t : Token}

/-- The text of a match that is a string: content between two copies of one quote. -/
theorem Pattern.content_of_best {n : Nat} (h : Rule.best cs = some (.stringLiteral, n)) :
    ∃ quote w, (quote = '\x22' ∨ quote = '\x27') ∧ Content quote w ∧ cs.take n = quote :: w ++ [quote] := by
  obtain ⟨p, hp, hkind, hword⟩ := (longest_of_best h).1.found.mem
  rcases complete_of_stringLiteral p hp hkind with hwords | hwords
  · obtain ⟨w, hw, htake⟩ := mem_complete.mp (hwords ▸ hword)
    exact ⟨'\x22', w, .inl rfl, hw, htake⟩
  · obtain ⟨w, hw, htake⟩ := mem_complete.mp (hwords ▸ hword)
    exact ⟨'\x27', w, .inr rfl, hw, htake⟩

/-- The token stands between two copies of a quote and is content of a string. -/
def Enclosed (before : List Token) (t : Token) (after : List Token) : Prop :=
  ∃ quote q before' after', (quote = '\x22' ∨ quote = '\x27') ∧
    q = Token.mk (if quote = '\x22' then .doubleQuote else .singleQuote) (String.singleton quote) ∧
    before = before' ++ [q] ∧ after = q :: after' ∧ Content quote t.text.toList

theorem Enclosed.append (h : Enclosed before t after) (front : List Token) : Enclosed (front ++ before) t after := by
  obtain ⟨quote, q, before', after', hquote, hq, rfl, hafter, hcontent⟩ := h
  exact ⟨quote, q, front ++ before', after', hquote, hq, (List.append_assoc _ _ _).symm, hafter, hcontent⟩

/-- Among the tokens of a match. -/
theorem enclosed_of_ofMatch {kind : Kind} {n : Nat} (hbest : Rule.best cs = some (kind, n)) (ht : t.kind = .strVal)
    (h : Token.ofMatch kind (cs.take n) = before ++ t :: after) (behind : List Token) :
    Enclosed before t (after ++ behind) := by
  have hquotes (q : Char) : (if q = '\x22' then Kind.doubleQuote else .singleQuote) ≠ .strVal := by
    split <;> exact Kind.noConfusion
  have hmem : t ∈ Token.ofMatch kind (cs.take n) := h ▸ List.mem_append_right _ List.mem_cons_self
  by_cases hkind : kind = .stringLiteral
  · subst hkind
    obtain ⟨quote, w, hquote, hw, htake⟩ := content_of_best hbest
    rw [htake, Token.ofMatch, if_pos rfl, List.cons_append, Token.splitString, List.dropLast_concat] at h hmem
    split at h
    · rename_i hempty
      simp only [hempty, if_true, List.mem_cons, List.not_mem_nil, or_false, or_self] at hmem
      rw [hmem] at ht
      exact absurd ht (hquotes quote)
    · rcases before with _ | ⟨u, _ | ⟨u', before⟩⟩
      · obtain ⟨rfl, -⟩ := List.cons.inj h
        exact absurd ht (hquotes quote)
      · obtain ⟨rfl, htail⟩ := List.cons.inj h
        obtain ⟨rfl, rfl⟩ := List.cons.inj htail
        exact ⟨quote, _, [], behind, hquote, rfl, rfl, rfl, String.toList_ofList ▸ hw⟩
      · obtain ⟨-, htail⟩ := List.cons.inj h
        obtain ⟨-, hlast⟩ := List.cons.inj htail
        have hmem : t ∈ before ++ t :: after := List.mem_append_right _ List.mem_cons_self
        rw [← List.append_eq, ← hlast, List.mem_singleton] at hmem
        rw [hmem] at ht
        exact absurd ht (hquotes quote)
  · rw [Token.ofMatch, if_neg hkind, List.mem_singleton] at hmem
    rw [hmem] at ht
    cases ht
    cases Rule.not_isStringPart_of_best hbest

theorem Lexed.enclosed (h : Lexed cs (before ++ t :: after)) (ht : t.kind = .strVal) : Enclosed before t after := by
  generalize hts : before ++ t :: after = ts at h
  induction h generalizing before with
  | nil => exact absurd hts (List.append_ne_nil_of_right_ne_nil _ (List.cons_ne_nil _ _))
  | @found cs ts kind n hbest _ ih =>
      rcases List.append_eq_append_iff.mp hts.symm with ⟨before', rfl, hrest⟩ | ⟨part, hmatch, hrest⟩
      · exact (ih hrest.symm).append _
      · cases part with
        | nil =>
            rw [List.append_nil] at hmatch
            rw [← hmatch, ← List.append_nil (Token.ofMatch _ _)]
            exact (ih hrest).append _
        | cons u part =>
            obtain ⟨rfl, rfl⟩ := List.cons.inj hrest
            exact enclosed_of_ofMatch hbest ht hmatch ts
  | unmatched _ _ _ _ ih =>
      cases before with
      | nil =>
          obtain ⟨rfl, -⟩ := List.cons.inj hts
          cases ht
      | cons u before =>
          obtain ⟨rfl, hrest⟩ := List.cons.inj hts
          exact (ih hrest).append [_]

/-- The lexer and the reader of literals agree on escapes. The content of a string stands between two copies of one
quote. Reading it never fails because of a backslash that has nothing to escape, and wherever this quote occurs in it,
there is an escaping backslash in front of it. -/
theorem content_agrees_on_escapes {source : String} (h : lex source = before ++ t :: after) (ht : t.kind = .strVal) :
    (∀ e, Literal.unescape t.text = .error e → e.fault ≠ .dangling) ∧
      ∃ quote q before' after', (quote = '\x22' ∨ quote = '\x27') ∧
        q = Token.mk (if quote = '\x22' then .doubleQuote else .singleQuote) (String.singleton quote) ∧
        before = before' ++ [q] ∧ after = q :: after' ∧
        ∀ i, t.text.toList[i]? = some quote → ∃ j, i = j + 1 ∧ (escaping false t.text.toList)[j]? = some true := by
  have hlexed : Lexed source.toList (before ++ t :: after) := h ▸ lexed_lex source
  obtain ⟨quote, q, before', after', hquote, hq, hbefore, hafter, hcontent⟩ := hlexed.enclosed ht
  refine ⟨fun e he => Literal.not_dangling_of_content hcontent he,
    quote, q, before', after', hquote, hq, hbefore, hafter, fun i hi => hcontent.escaping_of_quote hi ?_⟩
  rcases hquote with rfl | rfl <;> decide

/-- Inside of a bracket that is not closed, a backslash in the end is paired with the one in front of it. -/
theorem content_agrees_on_escapes_in_bracket :
    lex "x='[\\'\\\\';" = [⟨.id, "x"⟩, ⟨.equals, "="⟩, ⟨.singleQuote, "'"⟩] ++ ⟨.strVal, "[\\'\\\\"⟩ ::
        [⟨.singleQuote, "'"⟩, ⟨.semicolon, ";"⟩] ∧
      ∃ e, Literal.unescape "[\\'\\\\" = .error e ∧ e.fault = .unterminated ∧ e.fault ≠ .dangling := by
  have hlex : lex "x='[\\'\\\\';" = [⟨.id, "x"⟩, ⟨.equals, "="⟩, ⟨.singleQuote, "'"⟩] ++ ⟨.strVal, "[\\'\\\\"⟩ ::
      [⟨.singleQuote, "'"⟩, ⟨.semicolon, ";"⟩] := by decide
  obtain ⟨hdangling, -⟩ := content_agrees_on_escapes hlex rfl
  exact ⟨hlex, _, rfl, rfl, hdangling _ rfl⟩

end Transducer
