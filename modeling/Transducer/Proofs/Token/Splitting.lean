import Transducer.Proofs.Token.Lexed

/-!
# A source falls apart behind a `;`

The longest match depends on all characters ahead, so tokens cannot be told from a part of a source in general. Behind a
token `;` they can: no match goes on over a `;` unless it is inside of a string or a comment, and a string or a comment
that ends before the last character ends there whatever follows. So if the last token of a text is a `;`, the tokens of
the text and of what follows it are found independently of each other.
-/

namespace Transducer

namespace Rule

/-! ### Single rules -/

theorem takeWhile_of_stop {p : Char → Bool} {c : Char} (hc : p c = false) (cs ds : List Char) :
    (cs ++ c :: ds).takeWhile p = cs.takeWhile p := by
  have hnil : (c :: ds).takeWhile p = [] := List.takeWhile_cons_of_neg (by simp [hc])
  rw [List.takeWhile_append, hnil, List.append_nil]
  split
  · rename_i hall
    exact (List.takeWhile_prefix p).eq_of_length hall |>.symm
  · rfl

theorem isPrefixOf_append {text : List Char} (htext : ';' ∉ text.dropLast) (cs ds : List Char) :
    text.isPrefixOf (cs ++ ';' :: ds) = text.isPrefixOf (cs ++ [';']) := by
  induction text generalizing cs with
  | nil => rw [List.isPrefixOf_nil_left, List.isPrefixOf_nil_left]
  | cons c text ih =>
      have hrest : ';' ∉ text.dropLast := by
        intro hmem
        have hne : text ≠ [] := by
          rintro rfl
          cases hmem
        rw [List.dropLast_cons_of_ne_nil hne] at htext
        exact htext (List.mem_cons_of_mem c hmem)
      cases cs with
      | cons d cs => rw [List.cons_append, List.cons_append, List.isPrefixOf, List.isPrefixOf, ih hrest]
      | nil =>
          rw [List.nil_append, List.nil_append, List.isPrefixOf, List.isPrefixOf]
          cases text with
          | nil => rw [List.isPrefixOf_nil_left, List.isPrefixOf_nil_left]
          | cons d text =>
              have hne : (c == ';') = false := beq_eq_false_iff_ne.mpr fun heq => htext (by simp [heq])
              rw [hne, Bool.false_and, Bool.false_and]

theorem exactly_append {text : List Char} (htext : ';' ∉ text.dropLast) (cs ds : List Char) :
    exactly text (cs ++ ';' :: ds) = exactly text (cs ++ [';']) := by
  rw [exactly, exactly, isPrefixOf_append htext]

theorem run_append {p : Char → Bool} (hp : p ';' = false) (cs ds : List Char) :
    run p (cs ++ ';' :: ds) = run p (cs ++ [';']) := by
  rw [run, run, takeWhile_of_stop hp, takeWhile_of_stop hp]

theorem le_of_run {p : Char → Bool} (hp : p ';' = false) {cs : List Char} {n : Nat}
    (h : run p (cs ++ [';']) = some n) : n ≤ cs.length := by
  rw [run, takeWhile_of_stop hp] at h
  have hle : (cs.takeWhile p).length ≤ cs.length := (List.takeWhile_prefix p).length_le
  split at h
  · cases h
  · rename_i hlength
    cases h
    rw [hlength] at hle
    exact hle

theorem identifier_append (cs ds : List Char) : identifier (cs ++ ';' :: ds) = identifier (cs ++ [';']) := by
  cases cs with
  | nil => rfl
  | cons c cs =>
      have hstop : isNameRest ';' = false := by decide
      rw [List.cons_append, List.cons_append, identifier, identifier, takeWhile_of_stop hstop, takeWhile_of_stop hstop]

theorem number_append (cs ds : List Char) : number (cs ++ ';' :: ds) = number (cs ++ [';']) := by
  have hstop : Char.isDigit ';' = false := by decide
  rw [number, number, run_append hstop cs ds]
  split
  · rfl
  · rename_i n hrun
    have hle := le_of_run hstop hrun
    rw [List.drop_append_of_le_length hle, List.drop_append_of_le_length hle]
    cases cs.drop n with
    | nil => rfl
    | cons c rest =>
        by_cases hpoint : c = '.'
        · subst hpoint
          simp only [List.cons_append, run_append hstop rest ds]
        · rw [List.cons_append, List.cons_append]
          split
          · rename_i heq
            exact absurd (List.cons.inj heq).1 hpoint
          · split
            · rename_i heq
              exact absurd (List.cons.inj heq).1 hpoint
            · rfl

/-- String content that ends before the last character, which escapes nothing, ends there whatever follows. -/
theorem contentLength_append {quote : Char} {cs : List Char} (h : contentLength quote cs < cs.length)
    (hlast : cs.getLast? ≠ some '\\') (ds : List Char) : contentLength quote (cs ++ ds) = contentLength quote cs := by
  fun_induction contentLength quote cs with
  | case1 => cases h
  | case2 => exact absurd rfl hlast
  | case3 cs => rfl
  | case4 c cs hc ih =>
      have hlast' : cs.getLast? ≠ some '\\' := fun heq => hlast (by simp [List.getLast?_cons, heq])
      rw [List.cons_append, List.cons_append, contentLength, if_neg hc, ih (Nat.lt_of_add_lt_add_right h) hlast']
  | case5 cs hquote =>
      rw [List.cons_append, contentLength, if_pos rfl]
      exact hquote
  | case6 c cs hslash hc ih =>
      have hlast' : cs.getLast? ≠ some '\\' := fun heq => hlast (by simp [List.getLast?_cons, heq])
      rw [List.cons_append, contentLength, if_neg hc, ih (Nat.lt_of_add_lt_add_right h) hlast']
      exact hslash

/-! ### The longest match -/

/-- No rule matches all of the characters. -/
def Short (cs : List Char) : Prop := ∀ r ∈ all, ∀ n, r.match? cs = some n → n < cs.length

/-- A string that ends before the last character ends there whatever follows. -/
theorem contentLength_of_short {quote : Char} {cs : List Char} (h : Short (quote :: (cs ++ [';'])))
    (hmem : ⟨.unterminatedStr, unterminated quote⟩ ∈ all) (ds : List Char) :
    contentLength quote (cs ++ [';']) < (cs ++ [';']).length ∧
      contentLength quote (cs ++ ';' :: ds) = contentLength quote (cs ++ [';']) := by
  have hlt : contentLength quote (cs ++ [';']) < (cs ++ [';']).length :=
    Nat.lt_of_add_lt_add_right (h _ hmem (contentLength quote (cs ++ [';']) + 1) (if_pos rfl))
  have happend := contentLength_append hlt (by simp) ds
  rw [List.append_assoc] at happend
  exact ⟨hlt, happend⟩

theorem unterminated_append {quote c : Char} {cs : List Char} (h : Short (c :: (cs ++ [';'])))
    (hmem : ⟨.unterminatedStr, unterminated quote⟩ ∈ all) (ds : List Char) :
    unterminated quote (c :: (cs ++ ';' :: ds)) = unterminated quote (c :: (cs ++ [';'])) := by
  rw [unterminated, unterminated]
  split
  · rename_i hquote
    subst hquote
    rw [(contentLength_of_short h hmem ds).2]
  · rfl

theorem complete_append {quote c : Char} {cs : List Char} (h : Short (c :: (cs ++ [';'])))
    (hmem : ⟨.unterminatedStr, unterminated quote⟩ ∈ all) (ds : List Char) :
    complete quote (c :: (cs ++ ';' :: ds)) = complete quote (c :: (cs ++ [';'])) := by
  by_cases hquote : c = quote
  · subst hquote
    obtain ⟨hlt, hcontent⟩ := contentLength_of_short h hmem ds
    have hchar : (cs ++ [';'] ++ ds)[contentLength c (cs ++ [';'])]? = (cs ++ [';'])[contentLength c (cs ++ [';'])]? :=
      List.getElem?_append_left hlt
    rw [List.append_assoc] at hchar
    rw [complete, complete, hcontent, ← hchar]
    rfl
  · simp only [complete, hquote, false_and, if_false]

theorem comment_append {c : Char} {cs : List Char} (h : Short (c :: (cs ++ [';']))) (ds : List Char) :
    comment (c :: (cs ++ ';' :: ds)) = comment (c :: (cs ++ [';'])) := by
  rw [comment, comment]
  split
  · rename_i hstart
    have hmem : ⟨.lineComment, comment⟩ ∈ all := by simp [all]
    have hlt := Nat.lt_of_add_lt_add_right (h _ hmem _ (if_pos hstart))
    have happend : (cs ++ [';'] ++ ds).takeWhile (fun d => d != '\n') = (cs ++ [';']).takeWhile fun d => d != '\n' :=
      List.takeWhile_append.trans (if_neg (Nat.ne_of_lt hlt))
    rw [List.append_assoc] at happend
    exact congrArg (fun found => some (List.length found + 1)) happend
  · rfl

theorem match?_append {cs : List Char} (h : Short (cs ++ [';'])) (ds : List Char) :
    ∀ r ∈ all, r.match? (cs ++ ';' :: ds) = r.match? (cs ++ [';']) := by
  cases cs with
  | nil => exact absurd (h ⟨.semicolon, exactly [';']⟩ (by simp [all]) 1 rfl) (Nat.lt_irrefl 1)
  | cons c cs =>
      have hdouble : ⟨.unterminatedStr, unterminated '\x22'⟩ ∈ all := by simp [all]
      have hsingle : ⟨.unterminatedStr, unterminated '\x27'⟩ ∈ all := by simp [all]
      have hcomment : comment (c :: cs ++ ';' :: ds) = comment (c :: cs ++ [';']) := comment_append h ds
      have hstring {quote : Char} (hmem : ⟨.unterminatedStr, unterminated quote⟩ ∈ all) :
          complete quote (c :: cs ++ ';' :: ds) = complete quote (c :: cs ++ [';']) ∧
            unterminated quote (c :: cs ++ ';' :: ds) = unterminated quote (c :: cs ++ [';']) :=
        ⟨complete_append h hmem ds, unterminated_append h hmem ds⟩
      have hblank := run_append (p := fun c => c == ' ' || c == '\t') (by decide) (c :: cs) ds
      simp (disch := decide) only [all, List.forall_mem_cons, exactly_append, (hstring hdouble).1, (hstring hdouble).2,
        (hstring hsingle).1, (hstring hsingle).2, number_append, identifier_append, hblank, hcomment, true_and]
      exact List.forall_mem_nil _

theorem longest_congr {rules : List Rule} {cs ds : List Char} (h : ∀ r ∈ rules, r.match? cs = r.match? ds) :
    longest rules cs = longest rules ds := by
  induction rules with
  | nil => rfl
  | cons r rules ih =>
      obtain ⟨hr, hrules⟩ := List.forall_mem_cons.mp h
      rw [longest, longest, hr, ih hrules]

theorem le_of_longest {rules : List Rule} {cs : List Char} {r : Rule} (hr : r ∈ rules) {n : Nat}
    (h : r.match? cs = some n) : ∃ kind m, longest rules cs = some (kind, m) ∧ n ≤ m := by
  induction rules with
  | nil => cases hr
  | cons r' rules ih =>
      rw [longest]
      obtain rfl | hr := List.mem_cons.mp hr
      · rw [h]
        cases longest rules cs with
        | none => exact ⟨r.kind, n, rfl, Nat.le_refl n⟩
        | some found =>
            obtain ⟨kind, m⟩ := found
            dsimp only
            split
            · exact ⟨kind, m, rfl, by omega⟩
            · exact ⟨r.kind, n, rfl, Nat.le_refl n⟩
      · obtain ⟨kind, m, hlongest, hle⟩ := ih hr
        rw [hlongest]
        cases r'.match? cs with
        | none => exact ⟨kind, m, rfl, hle⟩
        | some n' =>
            dsimp only
            split
            · exact ⟨kind, m, rfl, hle⟩
            · exact ⟨r'.kind, n', rfl, by omega⟩

theorem best_append_of_short {cs : List Char} (h : Short (cs ++ [';'])) (ds : List Char) :
    best (cs ++ ';' :: ds) = best (cs ++ [';']) :=
  longest_congr (match?_append h ds)

theorem short_of_best {cs : List Char} (h : ∀ kind n, best cs = some (kind, n) → n < cs.length) : Short cs := by
  intro r hr n hmatch
  obtain ⟨kind, m, hbest, hle⟩ := le_of_longest hr hmatch
  exact Nat.lt_of_le_of_lt hle (h kind m hbest)

end Rule

/-! ### Divisions -/

/-- The last of the tokens is a `;`. -/
def Token.EndsStatement (ts : List Token) : Prop := ∃ before, ts = before ++ [⟨.semicolon, ";"⟩]

/-- There are only trivia, or the first token that is none starts a statement. -/
def Token.startsStatement (ts : List Token) : Bool :=
  match ts.filter fun t => !t.isTrivia with
  | [] => true
  | first :: rest =>
      [.kwExport, .kwImport, .kwFunc, .kwReturn].contains first.kind ||
        (first.kind == .id && rest.head?.any fun next => next.kind == .equals)

namespace Token

theorem not_endsStatement_nil : ¬ EndsStatement [] := by
  rintro ⟨before, hnil⟩
  exact absurd hnil.symm (List.append_ne_nil_of_right_ne_nil _ (List.cons_ne_nil _ _))

theorem EndsStatement.of_append {ts us : List Token} (h : EndsStatement (ts ++ us)) (hus : us ≠ []) :
    EndsStatement us := by
  have hlast := List.getLast?_eq_some_iff.mpr h
  rw [List.getLast?_append, List.getLast?_eq_some_getLast hus] at hlast
  rw [EndsStatement, ← List.getLast?_eq_some_iff, List.getLast?_eq_some_getLast hus]
  exact hlast

theorem EndsStatement.of_cons {t : Token} {ts : List Token} (h : EndsStatement (t :: ts)) :
    ts = [] ∧ t = ⟨.semicolon, ";"⟩ ∨ EndsStatement ts := by
  cases ts with
  | nil => exact .inl ⟨rfl, Option.some.inj (List.getLast?_eq_some_iff.mpr h)⟩
  | cons u ts =>
      rw [← List.singleton_append] at h
      exact .inr (h.of_append (List.cons_ne_nil u ts))

theorem EndsStatement.dropTrivia_ne_nil {ts : List Token} (h : EndsStatement ts) : ts.dropWhile isTrivia ≠ [] := by
  obtain ⟨before, rfl⟩ := h
  rw [List.dropWhile_append]
  split
  · exact List.cons_ne_nil _ _
  · exact List.append_ne_nil_of_right_ne_nil _ (List.cons_ne_nil _ _)

theorem EndsStatement.dropTrivia {ts : List Token} (h : EndsStatement ts) : EndsStatement (ts.dropWhile isTrivia) := by
  have hsplit := List.takeWhile_append_dropWhile (p := isTrivia) (l := ts)
  exact of_append (hsplit.symm ▸ h) h.dropTrivia_ne_nil

theorem EndsStatement.dropTrivia_append {ts : List Token} (h : EndsStatement ts) (us : List Token) :
    (ts ++ us).dropWhile isTrivia = ts.dropWhile isTrivia ++ us := by
  rw [List.dropWhile_append, if_neg]
  rw [List.isEmpty_iff]
  exact h.dropTrivia_ne_nil

theorem EndsStatement.takeTrivia_append {ts : List Token} (h : EndsStatement ts) (us : List Token) :
    (ts ++ us).takeWhile isTrivia = ts.takeWhile isTrivia := by
  rw [List.takeWhile_append, if_neg]
  intro hall
  have hsplit := congrArg List.length (List.takeWhile_append_dropWhile (p := isTrivia) (l := ts))
  rw [List.length_append, hall, Nat.add_eq_left, List.length_eq_zero_iff] at hsplit
  exact h.dropTrivia_ne_nil hsplit

theorem EndsStatement.eq_of_ofMatch {kind : Kind} {text : List Char} (h : EndsStatement (ofMatch kind text)) :
    text = [';'] := by
  obtain ⟨before, heq⟩ := h
  have hmem : ⟨.semicolon, ";"⟩ ∈ ofMatch kind text := by simp [heq]
  unfold ofMatch at hmem
  split at hmem
  · cases isStringPart_of_mem_splitString hmem
  · have htext := congrArg (fun t => t.text.toList) (List.mem_singleton.mp hmem)
    simpa using htext.symm

end Token

namespace Lexed

variable {cs ds : List Char} {ts us : List Token}

theorem eq_nil (h : Lexed [] ts) : ts = [] := by
  generalize hcs : ([] : List Char) = cs at h
  cases h with
  | nil => rfl
  | found hbest _ =>
      subst hcs
      cases hbest
  | unmatched hne _ _ _ => exact absurd (List.append_eq_nil_iff.mp hcs.symm).1 hne

/-- No stretch without matches goes on behind the place where another one ends. -/
theorem length_le_of_unmatched {garbage garbage' cs' : List Char} (heq : garbage ++ cs = garbage' ++ cs')
    (hend : cs = [] ∨ Rule.best cs ≠ none)
    (hnone : ∀ i < garbage'.length, Rule.best ((garbage' ++ cs').drop i) = none) :
    garbage'.length ≤ garbage.length := by
  apply Nat.le_of_not_lt
  intro hlt
  have hbest := hnone _ hlt
  rw [← heq, List.drop_left] at hbest
  obtain rfl | hsome := hend
  · have hlength := congrArg List.length heq
    rw [List.append_nil, List.length_append] at hlength
    omega
  · exact hsome hbest

theorem unique (h : Lexed cs ts) (h' : Lexed cs us) : ts = us := by
  induction h generalizing us with
  | nil => exact h'.eq_nil.symm
  | found hbest hrest ih =>
      cases h' with
      | nil => cases hbest
      | found hbest' hrest' =>
          rw [hbest] at hbest'
          cases hbest'
          rw [ih hrest']
      | unmatched hne hnone _ _ =>
          have hstart := hnone 0 (List.length_pos_iff.mpr hne)
          rw [List.drop_zero, hbest] at hstart
          cases hstart
  | @unmatched garbage cs ts hne hnone hend hrest ih =>
      generalize hchars : garbage ++ cs = all at h'
      cases h' with
      | nil => exact absurd (List.append_eq_nil_iff.mp hchars).1 hne
      | found hbest' _ =>
          have hstart := hnone 0 (List.length_pos_iff.mpr hne)
          rw [List.drop_zero, hchars, hbest'] at hstart
          cases hstart
      | unmatched hne' hnone' hend' hrest' =>
          have hlength := Nat.le_antisymm (length_le_of_unmatched hchars.symm hend' hnone)
            (length_le_of_unmatched hchars hend hnone')
          obtain ⟨rfl, rfl⟩ := List.append_inj hchars hlength
          rw [ih hrest']

theorem ends (h : Lexed cs ts) (hends : Token.EndsStatement ts) : ∃ before, cs = before ++ [';'] := by
  obtain ⟨before, rfl⟩ := hends
  have hchars := h.charsOf_eq
  rw [Token.charsOf_append] at hchars
  exact ⟨Token.charsOf before, hchars.symm⟩

/-- The first token is the last one, or the `;` is still to come. -/
theorem found_cases {kind : Kind} {n : Nat} (hrest : Lexed (cs.drop n) ts)
    (hends : Token.EndsStatement (Token.ofMatch kind (cs.take n) ++ ts)) :
    cs = [';'] ∨ Token.EndsStatement ts ∧ n < cs.length := by
  by_cases hts : ts = []
  · subst hts
    rw [List.append_nil] at hends
    have hdrop : cs.drop n = [] := hrest.charsOf_eq.symm
    left
    rw [← List.take_append_drop n cs, hdrop, List.append_nil]
    exact hends.eq_of_ofMatch
  · refine .inr ⟨hends.of_append hts, Nat.lt_of_not_le fun hle => hts ?_⟩
    rw [List.drop_of_length_le hle] at hrest
    exact hrest.eq_nil

theorem best_append (h : Lexed cs ts) (hends : Token.EndsStatement ts) (ds : List Char) :
    Rule.best (cs ++ ds) = Rule.best cs := by
  have hshort (hlt : ∀ kind n, Rule.best cs = some (kind, n) → n < cs.length) :
      Rule.best (cs ++ ds) = Rule.best cs := by
    obtain ⟨before, rfl⟩ := h.ends hends
    rw [List.append_assoc]
    exact Rule.best_append_of_short (Rule.short_of_best hlt) ds
  cases h with
  | nil => exact absurd hends Token.not_endsStatement_nil
  | found hbest hrest =>
      obtain rfl | ⟨-, hlt⟩ := found_cases hrest hends
      · rfl
      · refine hshort fun kind n hbest' => ?_
        rw [hbest] at hbest'
        cases hbest'
        exact hlt
  | unmatched hne hnone _ _ =>
      have hstart := hnone 0 (List.length_pos_iff.mpr hne)
      refine hshort fun kind n hbest => ?_
      rw [List.drop_zero, hbest] at hstart
      cases hstart

/-- Behind the `;` a second text is divided as it is on its own. -/
theorem append (h : Lexed cs ts) (hends : Token.EndsStatement ts) (h' : Lexed ds us) :
    Lexed (cs ++ ds) (ts ++ us) := by
  induction h with
  | nil => exact absurd hends Token.not_endsStatement_nil
  | @found cs ts kind n hbest hrest ih =>
      have hbest' : Rule.best (cs ++ ds) = some (kind, n) := ((found hbest hrest).best_append hends ds).trans hbest
      obtain rfl | ⟨hends', hlt⟩ := found_cases hrest hends
      · cases hbest
        cases hrest.eq_nil
        exact found hbest' h'
      · have htake : (cs ++ ds).take n = cs.take n := List.take_append_of_le_length (Nat.le_of_lt hlt)
        have hdrop : (cs ++ ds).drop n = cs.drop n ++ ds := List.drop_append_of_le_length (Nat.le_of_lt hlt)
        have hfound := found hbest' (hdrop ▸ ih hends')
        rw [htake, ← List.append_assoc] at hfound
        exact hfound
  | @unmatched garbage cs ts hne hnone hend hrest ih =>
      have hts : ts ≠ [] := by
        rintro rfl
        cases List.getLast?_eq_some_iff.mpr hends
      have hcs : cs ≠ [] := by
        rintro rfl
        exact hts hrest.eq_nil
      have hends' : Token.EndsStatement ts := by
        rw [← List.singleton_append] at hends
        exact hends.of_append hts
      obtain ⟨before, hbefore⟩ := hrest.ends hends'
      rw [List.append_assoc, List.cons_append]
      refine unmatched hne (fun i hi => ?_) (.inr ?_) (ih hends')
      · -- Wherever the stretch is cut, what is ahead ends in the `;`.
        have hnone' := hnone i hi
        rw [hbefore, List.drop_append_of_le_length (Nat.le_of_lt hi), ← List.append_assoc] at hnone'
        have hshort : Rule.Short (garbage.drop i ++ before ++ [';']) := by
          refine Rule.short_of_best fun kind n hbest => ?_
          rw [hbest] at hnone'
          cases hnone'
        rw [hbefore, List.drop_append_of_le_length (Nat.le_of_lt hi), List.append_assoc before, ← List.append_assoc]
        exact (Rule.best_append_of_short hshort ds).trans hnone'
      · rw [hrest.best_append hends' ds]
        exact hend.resolve_left hcs

end Lexed

/-- The tokens of a text whose last token is a `;`, and of what follows it. -/
theorem lex_append {source rest : String} (h : Token.EndsStatement (lex source)) :
    lex (source ++ rest) = lex source ++ lex rest := by
  have hlexed := (lexed_lex source).append h (lexed_lex rest)
  rw [← String.toList_append] at hlexed
  exact (lexed_lex (source ++ rest)).unique hlexed

end Transducer
