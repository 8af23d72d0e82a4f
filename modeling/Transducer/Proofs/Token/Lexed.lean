import Transducer.Token.Lexer

/-!
# What the lexer makes of a source

`Lexed cs ts` says how the characters `cs` fall into the tokens `ts`: the longest match of the rules at every
position, and a stretch without matches as one garbage token. `lex` is shown to produce such a division, so that
everything else about tokens is an induction on the division and never looks at the lexer's accumulators.

Two consequences are drawn here. The texts of the tokens are the source again, and quotes come in groups: an
opening quote, possibly a content, and the same quote again. `Paired` is the language of such token lists.
-/

namespace Transducer

namespace Kind

def isQuote (k : Kind) : Bool := k == .doubleQuote || k == .singleQuote

/-- Kinds that only parts of a string have. -/
def isStringPart (k : Kind) : Bool := k.isQuote || k == .strVal

end Kind

namespace Rule

/-! ### Single rules -/

/-- A match of the rule covers at least one character. -/
def Proper (r : List Char → Option Nat) : Prop := ∀ cs n, r cs = some n → 0 < n

theorem proper_exactly {text : List Char} (htext : text ≠ []) : Proper (exactly text) := by
  intro cs n h
  simp only [exactly] at h
  split at h
  · cases h
    exact List.length_pos_iff.mpr htext
  · cases h

theorem proper_run (p : Char → Bool) : Proper (run p) := by
  intro cs n h
  simp only [run] at h
  split at h
  · cases h
  · cases h
    exact Nat.succ_pos _

theorem proper_complete (quote : Char) : Proper (complete quote) := by
  intro cs n h
  cases cs with
  | nil => cases h
  | cons c cs =>
      simp only [complete] at h
      split at h
      · cases h
        exact Nat.succ_pos _
      · cases h

theorem proper_unterminated (quote : Char) : Proper (unterminated quote) := by
  intro cs n h
  cases cs with
  | nil => cases h
  | cons c cs =>
      simp only [unterminated] at h
      split at h
      · cases h
        exact Nat.succ_pos _
      · cases h

theorem proper_number : Proper number := by
  intro cs n h
  simp only [number] at h
  split at h
  · cases h
  · rename_i m hm
    have hpos : 0 < m := proper_run _ cs m hm
    split at h
    · split at h <;> cases h <;> omega
    · cases h
      exact hpos

theorem proper_identifier : Proper identifier := by
  intro cs n h
  cases cs with
  | nil => cases h
  | cons c cs =>
      simp only [identifier] at h
      split at h
      · cases h
        exact Nat.succ_pos _
      · cases h

theorem proper_comment : Proper comment := by
  intro cs n h
  cases cs with
  | nil => cases h
  | cons c cs =>
      simp only [comment] at h
      split at h
      · cases h
        exact Nat.succ_pos _
      · cases h

theorem proper_of_mem_all : ∀ r ∈ all, Proper r.match? := by
  simp [all, proper_exactly, proper_run, proper_complete, proper_unterminated, proper_number, proper_identifier,
    proper_comment]

/-- A complete string is its content between two copies of one quote. -/
theorem take_of_complete {quote : Char} {cs : List Char} {n : Nat} (h : complete quote cs = some n) :
    ∃ content, cs.take n = quote :: content ++ [quote] := by
  cases cs with
  | nil => cases h
  | cons c cs =>
      simp only [complete] at h
      split at h
      · rename_i hquote
        cases h
        refine ⟨cs.take (contentLength quote cs), ?_⟩
        rw [List.take_succ_cons, List.take_add_one, hquote.2, hquote.1]
        rfl
      · cases h

/-! ### The longest match -/

theorem mem_of_longest {rules : List Rule} {cs : List Char} {kind : Kind} {n : Nat}
    (h : longest rules cs = some (kind, n)) : ∃ r ∈ rules, r.kind = kind ∧ r.match? cs = some n := by
  induction rules generalizing kind n with
  | nil => cases h
  | cons r rules ih =>
      simp only [longest] at h
      split at h
      · obtain ⟨s, hs, hmatch⟩ := ih h
        exact ⟨s, List.mem_cons_of_mem _ hs, hmatch⟩
      · rename_i hr hnone
        cases h
        exact ⟨r, List.mem_cons_self, rfl, hr⟩
      · rename_i hr hsome
        split at h
        · cases h
          obtain ⟨s, hs, hmatch⟩ := ih hsome
          exact ⟨s, List.mem_cons_of_mem _ hs, hmatch⟩
        · cases h
          exact ⟨r, List.mem_cons_self, rfl, hr⟩

theorem pos_of_best {cs : List Char} {kind : Kind} {n : Nat} (h : best cs = some (kind, n)) : 0 < n := by
  obtain ⟨r, hr, -, hmatch⟩ := mem_of_longest h
  exact proper_of_mem_all r hr cs n hmatch

theorem not_isStringPart_of_best {cs : List Char} {kind : Kind} {n : Nat} (h : best cs = some (kind, n)) :
    kind.isStringPart = false := by
  have hall : ∀ r ∈ all, r.kind.isStringPart = false := by decide
  obtain ⟨r, hr, rfl, -⟩ := mem_of_longest h
  exact hall r hr

theorem string_of_mem_all : ∀ r ∈ all, r.kind = .stringLiteral →
    r.match? = complete '\x22' ∨ r.match? = complete '\x27' := by
  simp [all]

/-- The text of a match that is a string: its content between two copies of one quote. -/
theorem string_of_best {cs : List Char} {n : Nat} (h : best cs = some (.stringLiteral, n)) :
    ∃ quote content, (quote = '\x22' ∨ quote = '\x27') ∧ cs.take n = quote :: content ++ [quote] := by
  obtain ⟨r, hr, hkind, hmatch⟩ := mem_of_longest h
  obtain hdouble | hsingle := string_of_mem_all r hr hkind
  · rw [hdouble] at hmatch
    obtain ⟨content, htake⟩ := take_of_complete hmatch
    exact ⟨'\x22', content, .inl rfl, htake⟩
  · rw [hsingle] at hmatch
    obtain ⟨content, htake⟩ := take_of_complete hmatch
    exact ⟨'\x27', content, .inr rfl, htake⟩

end Rule

/-! ### The division of a source -/

/-- Characters with the tokens they fall into. -/
inductive Lexed : List Char → List Token → Prop where
  | nil : Lexed [] []
  /-- The longest match at the head of the input. -/
  | found {cs : List Char} {ts : List Token} {kind : Kind} {n : Nat} (hbest : Rule.best cs = some (kind, n))
      (hrest : Lexed (cs.drop n) ts) : Lexed cs (Token.ofMatch kind (cs.take n) ++ ts)
  /-- A stretch at which no rule matches, up to the next match or the end. -/
  | unmatched {garbage cs : List Char} {ts : List Token} (hne : garbage ≠ [])
      (hnone : ∀ i < garbage.length, Rule.best ((garbage ++ cs).drop i) = none)
      (hend : cs = [] ∨ Rule.best cs ≠ none) (hrest : Lexed cs ts) :
      Lexed (garbage ++ cs) (⟨.garbage, String.ofList garbage⟩ :: ts)

namespace Token

theorem lexFrom_skip (k : Nat) (garbage : List Char) (done : List Token) (cs : List Char) :
    lexFrom k garbage done cs = lexFrom 0 garbage done (cs.drop k) := by
  induction cs generalizing k with
  | nil => cases k <;> rfl
  | cons c cs ih =>
      cases k with
      | zero => rfl
      | succ k => rw [lexFrom, ih, List.drop_succ_cons]

/-- Garbage that is pending in front of a division becomes one token of it. -/
theorem lexed_pending {garbage cs : List Char} {ts : List Token}
    (hnone : ∀ i < garbage.reverse.length, Rule.best ((garbage.reverse ++ cs).drop i) = none)
    (hend : cs = [] ∨ Rule.best cs ≠ none) (hrest : Lexed cs ts) :
    Lexed (garbage.reverse ++ cs) (ofGarbage garbage ++ ts) := by
  unfold ofGarbage
  split
  · rename_i hempty
    rw [List.isEmpty_iff.mp hempty]
    exact hrest
  · rename_i hempty
    refine .unmatched ?_ hnone hend hrest
    intro hnil
    exact hempty (List.isEmpty_iff.mpr (List.reverse_eq_nil_iff.mp hnil))

theorem reverse_ofGarbage (garbage : List Char) : (ofGarbage garbage).reverse = ofGarbage garbage := by
  unfold ofGarbage
  split <;> rfl

/-- Lexing on from a position continues a division. The garbage in progress, last character first, matches no
rule at any of its characters. -/
theorem lexed_lexFrom (garbage : List Char) (done : List Token) (cs : List Char)
    (hnone : ∀ i < garbage.reverse.length, Rule.best ((garbage.reverse ++ cs).drop i) = none) :
    ∃ ts, Lexed (garbage.reverse ++ cs) ts ∧ lexFrom 0 garbage done cs = done.reverse ++ ts := by
  induction hlength : cs.length using Nat.strongRecOn generalizing garbage done cs with
  | ind length ih =>
      subst hlength
      cases cs with
      | nil =>
          refine ⟨ofGarbage garbage ++ [], lexed_pending hnone (.inl rfl) .nil, ?_⟩
          rw [lexFrom, List.reverse_append, reverse_ofGarbage, List.append_nil]
      | cons c cs =>
          rw [lexFrom]
          split
          · rename_i kind n hbest
            have hn : 0 < n := Rule.pos_of_best hbest
            have hdrop : cs.drop (n - 1) = (c :: cs).drop n := by
              obtain ⟨m, rfl⟩ : ∃ m, n = m + 1 := ⟨n - 1, by omega⟩
              rfl
            have hshort : ((c :: cs).drop n).length < (c :: cs).length := by
              rw [List.length_drop, List.length_cons]
              omega
            rw [lexFrom_skip, hdrop]
            obtain ⟨ts, hlexed, hrun⟩ := ih _ hshort []
              ((ofMatch kind ((c :: cs).take n)).reverse ++ (ofGarbage garbage ++ done)) ((c :: cs).drop n)
              (fun i hi => absurd hi (Nat.not_lt_zero i)) rfl
            refine ⟨ofGarbage garbage ++ (ofMatch kind ((c :: cs).take n) ++ ts),
              lexed_pending hnone (.inr (by rw [hbest]; simp)) (.found hbest hlexed), ?_⟩
            rw [hrun, List.reverse_append, List.reverse_reverse, List.reverse_append, reverse_ofGarbage]
            simp only [List.append_assoc]
          · rename_i hbest
            have hstep : (c :: garbage).reverse ++ cs = garbage.reverse ++ c :: cs := by
              rw [List.reverse_cons, List.append_assoc]
              rfl
            have hnone' : ∀ i < (c :: garbage).reverse.length,
                Rule.best (((c :: garbage).reverse ++ cs).drop i) = none := by
              intro i hi
              rw [hstep]
              by_cases hlast : i < garbage.reverse.length
              · exact hnone i hlast
              · have hi : i = garbage.reverse.length := by
                  rw [List.length_reverse] at hi hlast ⊢
                  rw [List.length_cons] at hi
                  omega
                rw [hi, List.drop_left]
                exact hbest
            obtain ⟨ts, hlexed, hrun⟩ := ih cs.length (Nat.lt_succ_self _) (c :: garbage) done cs hnone' rfl
            rw [hstep] at hlexed
            exact ⟨ts, hlexed, hrun⟩

end Token

theorem lexed_lex (source : String) : Lexed source.toList (lex source) := by
  obtain ⟨ts, hlexed, hrun⟩ := Token.lexed_lexFrom [] [] source.toList fun i hi => absurd hi (Nat.not_lt_zero i)
  have hlex : lex source = ts := hrun
  rw [hlex]
  exact hlexed

/-! ### The texts of the tokens -/

namespace Token

/-- The characters that some tokens cover. -/
def charsOf (ts : List Token) : List Char := ts.flatMap fun t => t.text.toList

@[simp]
theorem charsOf_append (ts us : List Token) : charsOf (ts ++ us) = charsOf ts ++ charsOf us :=
  List.flatMap_append

theorem charsOf_splitString {quote : Char} {content : List Char} :
    charsOf (splitString (quote :: content ++ [quote])) = quote :: content ++ [quote] := by
  have hlast : (content ++ [quote]).dropLast = content := List.dropLast_concat
  simp only [List.cons_append, splitString, hlast]
  split
  · rename_i hempty
    rw [List.isEmpty_iff.mp hempty]
    simp [charsOf]
  · simp [charsOf]

theorem charsOf_ofMatch {cs : List Char} {kind : Kind} {n : Nat} (hbest : Rule.best cs = some (kind, n)) :
    charsOf (ofMatch kind (cs.take n)) = cs.take n := by
  unfold ofMatch
  split
  · rename_i hkind
    subst hkind
    obtain ⟨quote, content, -, htake⟩ := Rule.string_of_best hbest
    rw [htake, charsOf_splitString]
  · simp [charsOf]

end Token

theorem Lexed.charsOf_eq {cs : List Char} {ts : List Token} (h : Lexed cs ts) : Token.charsOf ts = cs := by
  induction h with
  | nil => rfl
  | found hbest _ ih => rw [Token.charsOf_append, Token.charsOf_ofMatch hbest, ih, List.take_append_drop]
  | unmatched _ _ _ _ ih =>
      simp only [Token.charsOf] at ih
      simp only [Token.charsOf, List.flatMap_cons, ih, String.toList_ofList]

theorem join_text_lex (source : String) : String.join ((lex source).map Token.text) = source := by
  have hchars := (lexed_lex source).charsOf_eq
  rw [Token.charsOf] at hchars
  rw [← String.toList_inj, String.toList_join, List.flatMap_map]
  exact hchars

/-! ### Strings come in groups -/

/-- Token lists in which every quote belongs to a group of quote, possibly content, and the same quote. -/
inductive Paired : List Token → Prop where
  | nil : Paired []
  | plain {t : Token} {ts : List Token} (ht : t.kind.isStringPart = false) (hts : Paired ts) : Paired (t :: ts)
  | empty {q r : Token} {ts : List Token} (hq : q.kind.isQuote = true)
      (hr : r.kind = q.kind) (hts : Paired ts) : Paired (q :: r :: ts)
  | full {q v r : Token} {ts : List Token} (hq : q.kind.isQuote = true)
      (hv : v.kind = .strVal) (hr : r.kind = q.kind) (hts : Paired ts) : Paired (q :: v :: r :: ts)

theorem Paired.append {ts us : List Token} (hts : Paired ts) (hus : Paired us) : Paired (ts ++ us) := by
  induction hts with
  | nil => exact hus
  | plain ht _ ih => exact .plain ht ih
  | empty hq hr _ ih => exact .empty hq hr ih
  | full hq hv hr _ ih => exact .full hq hv hr ih

namespace Token

theorem paired_splitString {quote : Char} {content : List Char} :
    Paired (splitString (quote :: content ++ [quote])) := by
  have hquote : ∀ q : Char, (if q = '\x22' then Kind.doubleQuote else .singleQuote).isQuote = true := by
    intro q
    split <;> rfl
  simp only [List.cons_append, splitString]
  split
  · exact .empty (hquote quote) rfl .nil
  · exact .full (hquote quote) rfl rfl .nil

theorem paired_ofMatch {cs : List Char} {kind : Kind} {n : Nat} (hbest : Rule.best cs = some (kind, n)) :
    Paired (ofMatch kind (cs.take n)) := by
  unfold ofMatch
  split
  · rename_i hkind
    subst hkind
    obtain ⟨quote, content, -, htake⟩ := Rule.string_of_best hbest
    rw [htake]
    exact paired_splitString
  · exact .plain (Rule.not_isStringPart_of_best hbest) .nil

end Token

theorem Lexed.paired {cs : List Char} {ts : List Token} (h : Lexed cs ts) : Paired ts := by
  induction h with
  | nil => exact .nil
  | found hbest _ ih => exact (Token.paired_ofMatch hbest).append ih
  | unmatched _ _ _ _ ih => exact .plain rfl ih

theorem paired_lex (source : String) : Paired (lex source) := (lexed_lex source).paired

/-! ### Where tokens come from -/

namespace Token

theorem isStringPart_of_mem_splitString {cs : List Char} {t : Token} (h : t ∈ splitString cs) :
    t.kind.isStringPart = true := by
  have hquote : ∀ q : Char, (if q = '\x22' then Kind.doubleQuote else .singleQuote).isStringPart = true := by
    intro q
    split <;> rfl
  cases cs with
  | nil => cases h
  | cons q cs =>
      simp only [splitString] at h
      split at h
      · simp only [List.mem_cons, List.not_mem_nil, or_false, or_self] at h
        rw [h]
        exact hquote q
      · simp only [List.mem_cons, List.not_mem_nil, or_false] at h
        obtain rfl | rfl | rfl := h
        · exact hquote q
        · rfl
        · exact hquote q

/-- The text of the token is a match of a rule for its kind. -/
def Matched (t : Token) : Prop :=
  ∃ r ∈ Rule.all, ∃ cs n, r.kind = t.kind ∧ r.match? cs = some n ∧ t.text = String.ofList (cs.take n)

end Token

/-- A token is a part of a string, a match of a rule, or garbage. -/
theorem Lexed.of_mem {cs : List Char} {ts : List Token} (h : Lexed cs ts) {t : Token} (ht : t ∈ ts) :
    t.kind.isStringPart = true ∨ t.Matched ∨ t.kind = .garbage := by
  induction h with
  | nil => cases ht
  | found hbest _ ih =>
      obtain ht | ht := List.mem_append.mp ht
      · unfold Token.ofMatch at ht
        split at ht
        · exact .inl (Token.isStringPart_of_mem_splitString ht)
        · obtain ⟨r, hr, hkind, hmatch⟩ := Rule.mem_of_longest hbest
          rw [List.mem_singleton.mp ht]
          exact .inr (.inl ⟨r, hr, _, _, hkind, hmatch, rfl⟩)
      · exact ih ht
  | unmatched _ _ _ _ ih =>
      obtain rfl | ht := List.mem_cons.mp ht
      · exact .inr (.inr rfl)
      · exact ih ht

end Transducer
