import Transducer.Proofs.Token.LongestMatch
import Transducer.Proofs.Token.Splitting

/-!
# A `;` between two tokens

If a `;` is put right behind a token, it becomes a token of its own and all others stay as they are, unless the token is
a comment or a string that is not terminated. For a word that goes on over the `;` is a comment or the beginning of a
string: the comment would have reached to that place before, and the string has been closed before it.
-/

namespace Transducer

open Computability

/-- The token that ends a statement. -/
def Token.semicolon : Token := ⟨.semicolon, ";"⟩

namespace Pattern

variable {quote : Char} {a w cs ds : List Char}

/-! ### Words that end in a `;` -/

theorem forall_of_leading {p q : Char → Prop} (h : a ++ [';'] ∈ oneOf p * (oneOf q)∗) (ha : a ≠ []) : q ';' := by
  obtain ⟨c, v, hv, -, hall⟩ := mem_leading.mp h
  obtain ⟨d, a, rfl⟩ := List.exists_cons_of_ne_nil ha
  obtain ⟨-, rfl⟩ := List.cons.inj hv
  exact hall ';' (by simp)

theorem not_mem_number (h : a ++ [';'] ∈ number) : False := by
  have hdigit : ¬ Digit ';' := by decide
  rcases mem_number.mp h with h | ⟨u, -, v, hv, heq⟩
  · exact hdigit ((mem_digits.mp h).2 ';' (by simp))
  · obtain ⟨hne, hall⟩ := mem_digits.mp hv
    have hlast := congrArg List.getLast? heq
    rw [List.getLast?_concat, List.getLast?_append, List.getLast?_cons, List.getLast?_eq_some_getLast hne] at hlast
    exact hdigit (Option.some.inj hlast ▸ hall _ (List.getLast_mem hne))

theorem not_mem_complete (hquote : quote ≠ ';') (h : a ++ [';'] ∈ complete quote) : False := by
  obtain ⟨v, -, heq⟩ := mem_complete.mp h
  have hlast := congrArg List.getLast? heq
  rw [List.getLast?_concat, List.getLast?_concat] at hlast
  exact hquote (Option.some.inj hlast).symm

theorem not_mem_word {text : List Char} (htext : text.dropLast = [] ∨ text.getLast? ≠ some ';') (ha : a ≠ [])
    (h : a ++ [';'] ∈ ({text} : Language Char)) : False := by
  cases h
  rcases htext with hnil | hlast
  · exact ha (List.dropLast_concat.symm.trans hnil)
  · exact hlast List.getLast?_concat

theorem comment_or_unterminated (ha : a ≠ []) : ∀ p ∈ all, a ++ [';'] ∈ p.words →
    a ∈ comment ∨ ∃ quote, (quote = '\x22' ∨ quote = '\x27') ∧ a ++ [';'] ∈ unterminated quote := by
  have hcomment (h : a ++ [';'] ∈ comment) : a ∈ comment := by
    obtain ⟨v, hv, heq⟩ := cons_mem_singleton_mul.mp h
    obtain ⟨c, a, rfl⟩ := List.exists_cons_of_ne_nil ha
    obtain ⟨rfl, rfl⟩ := List.cons.inj heq
    refine cons_mem_singleton_mul.mpr ⟨a, mem_star_oneOf.mpr fun d hd => ?_, rfl⟩
    exact mem_star_oneOf.mp hv d (List.mem_append_left _ hd)
  have hname : ¬ NameRest ';' := by
    unfold NameRest Letter Digit
    decide
  have hblank : ¬ Blank ';' := by
    unfold Blank
    decide
  simp only [all, List.forall_mem_cons]
  and_intros
  all_goals first
    | exact fun h => absurd h (not_mem_word (by decide) ha)
    | exact fun h => absurd h (not_mem_complete (by decide))
    | exact fun h => .inr ⟨_, by decide, h⟩
    | exact fun h => absurd h not_mem_number
    | exact fun h => absurd (forall_of_leading h ha) hname
    | exact fun h => absurd (forall_of_leading h ha) hblank
    | exact fun h => .inl (hcomment h)
    | exact List.forall_mem_nil _

theorem Content.not_append {v : List Char} (h : Content quote v) (hslash : quote ≠ '\\') (rest : List Char) :
    ¬ Content quote (v ++ quote :: rest) := by
  intro hcontent
  have hlength := hcontent.length_append []
  rw [List.append_nil, h.length_append, contentLength_quote hslash, List.length_append, List.length_cons,
    Rule.contentLength] at hlength
  omega

/-! ### The longest match in front of a `;` -/

/-- A rule finds equally much in two texts that start with the same words of its language. -/
theorem Finds.congr {f : List Char → Option Nat} {L : Language Char} (hf : Finds f L)
    (h : ∀ w ∈ L, w <+: cs ↔ w <+: ds) : f cs = f ds := by
  have hle {cs ds : List Char} (h : ∀ w ∈ L, w <+: cs → w <+: ds) {n : Nat} (hn : f cs = some n) :
      ∃ m, f ds = some m ∧ n ≤ m := by
    obtain ⟨w, hw, hstarts, rfl⟩ := hf.sound hn
    exact hf.complete hw (h w hw hstarts)
  cases hcs : f cs with
  | none =>
      cases hds : f ds with
      | none => rfl
      | some m =>
          obtain ⟨n, hn, -⟩ := hle (fun w hw => (h w hw).mpr) hds
          cases hcs.symm.trans hn
  | some n =>
      obtain ⟨m, hm, hnm⟩ := hle (fun w hw => (h w hw).mp) hcs
      obtain ⟨n', hn', hmn⟩ := hle (fun w hw => (h w hw).mpr) hm
      cases hcs.symm.trans hn'
      rw [hm, Nat.le_antisymm hnm hmn]

theorem best_congr (h : ∀ p ∈ all, ∀ w ∈ p.words, w <+: cs ↔ w <+: ds) : Rule.best cs = Rule.best ds := by
  refine Rule.longest_congr fun r hr => ?_
  obtain ⟨p, hp, -, hfinds⟩ := exists_mem_of_forall₂ finds_all hr
  exact hfinds.congr (h p hp)

theorem prefix_of_ne (h : w <+: a ++ [';']) (hne : w ≠ a ++ [';']) : w <+: a := by
  rcases List.prefix_concat_iff.mp h with heq | hstarts
  · exact absurd heq hne
  · exact hstarts

/-- Where nothing matches, nothing does if a `;` follows at some place. -/
theorem best_eq_none_of_none {z : List Char} (h : Rule.best (a ++ z) = none) (ha : a ≠ []) :
    Rule.best (a ++ [';']) = none := by
  have hnone := best_eq_none_iff.mp h
  refine best_eq_none_iff.mpr fun kind w hmatches => ?_
  obtain ⟨p, hp, rfl, hw⟩ := hmatches.mem
  have hstart {p : Pattern} (hp : p ∈ all) {c : Char} (hc : [c] ∈ p.words) (hstarts : [c] <+: a ++ [';']) : False := by
    obtain ⟨d, a, rfl⟩ := List.exists_cons_of_ne_nil ha
    obtain ⟨rfl, -⟩ := List.cons_prefix_cons.mp hstarts
    exact hnone p.kind [c] ⟨List.cons_prefix_cons.mpr ⟨rfl, List.nil_prefix⟩, List.cons_ne_nil _ _, p, hp, rfl, hc⟩
  by_cases hwhole : w = a ++ [';']
  · -- The word would be a comment or a string, and so would be its first character alone.
    subst hwhole
    rcases comment_or_unterminated ha p hp hw with hcomment | ⟨quote, hquote, hstring⟩
    · obtain ⟨v, -, heq⟩ := cons_mem_singleton_mul.mp hcomment
      refine hstart (p := ⟨.lineComment, comment⟩) (by simp [all]) (c := '#') ?_ ?_
      · exact cons_mem_singleton_mul.mpr ⟨[], Language.nil_mem_kstar _, rfl⟩
      · rw [heq]
        exact List.cons_prefix_cons.mpr ⟨rfl, List.nil_prefix⟩
    · obtain ⟨v, -, heq⟩ := mem_unterminated.mp hstring
      refine hstart (p := ⟨.unterminatedStr, unterminated quote⟩) ?_ (c := quote) ?_ ?_
      · rcases hquote with rfl | rfl <;> simp [all]
      · exact mem_unterminated.mpr ⟨[], .nil, rfl⟩
      · rw [heq]
        exact List.cons_prefix_cons.mpr ⟨rfl, List.nil_prefix⟩
  · exact hnone p.kind w ⟨(prefix_of_ne hmatches.starts hwhole).trans (List.prefix_append a z), hmatches.ne_nil, p, hp,
      rfl, hw⟩

/-- A string that is closed is not the beginning of one that goes on over a `;`. -/
theorem not_mem_unterminated {x rest : List Char} {p : Pattern} (hp : p ∈ all) (hx : x ∈ p.words)
    (hkind : p.kind ≠ .unterminatedStr) (hquote : quote = '\x22' ∨ quote = '\x27') :
    x ++ rest ∉ unterminated quote := by
  intro hmem
  obtain ⟨content, hcontent, heq⟩ := mem_unterminated.mp hmem
  obtain ⟨c, x', rfl, hlead⟩ := mem_leads_of_mem p hp x hx
  rw [List.cons_append] at heq
  obtain ⟨rfl, hrest⟩ := List.cons.inj heq
  have hliteral : p.kind = .stringLiteral := by
    have hleads : leads c = [.stringLiteral, .unterminatedStr] := by
      rcases hquote with rfl | rfl <;> rfl
    rw [hleads, List.mem_cons, List.mem_singleton] at hlead
    exact hlead.resolve_right hkind
  have hclosed : c :: x' ∈ complete c := by
    rcases complete_of_stringLiteral p hp hliteral with hwords | hwords
    all_goals
      rw [hwords] at hx
      obtain ⟨v, hv, hv'⟩ := mem_complete.mp hx
      obtain ⟨rfl, -⟩ := List.cons.inj hv'
      exact hx
  obtain ⟨v, hv, hv'⟩ := mem_complete.mp hclosed
  rw [List.cons_append] at hv'
  obtain ⟨-, rfl⟩ := List.cons.inj hv'
  have hslash : c ≠ '\\' := by rcases hquote with rfl | rfl <;> decide
  rw [← hrest, List.append_assoc] at hcontent
  exact hv.not_append hslash rest hcontent

/-- A match stays the longest one if a `;` follows it at some place, unless it is a comment that ends there or a string
that is not terminated. -/
theorem best_eq_of_found {x y z : List Char} {kind : Kind} (h : Rule.best (x ++ y ++ z) = some (kind, x.length))
    (hstring : kind ≠ .unterminatedStr) (hcomment : kind = .lineComment → y ≠ []) :
    Rule.best (x ++ y ++ [';']) = some (kind, x.length) := by
  obtain ⟨hlongest, -⟩ := longest_of_best h
  rw [List.append_assoc, List.take_left, ← List.append_assoc] at hlongest
  have ha : x ++ y ≠ [] := List.append_ne_nil_of_left_ne_nil hlongest.found.ne_nil y
  rw [← h]
  refine best_congr fun p hp w hw => ⟨fun hstarts => ?_, fun hstarts => ?_⟩
  · by_cases hwhole : w = x ++ y ++ [';']
    · subst hwhole
      rcases comment_or_unterminated ha p hp hw with hmem | ⟨quote, hquote, hmem⟩
      · -- A comment goes as far as it can.
        have hmatches : Matches (x ++ y ++ z) .lineComment (x ++ y) :=
          ⟨List.prefix_append _ z, ha, ⟨.lineComment, comment⟩, by simp [all], rfl, hmem⟩
        have hy : y = [] := by
          have hle := hlongest.length_le _ _ hmatches
          rw [List.length_append] at hle
          exact List.length_eq_zero_iff.mp (by omega)
        rcases hlongest.preferred _ _ hmatches (by rw [hy, List.append_nil]) with hkind | hkind
        · exact absurd hy (hcomment hkind.symm)
        · rcases hkind with ⟨-, hkind⟩ | ⟨-, hkind⟩ <;> cases hkind
      · obtain ⟨found, hfound, rfl, hx⟩ := hlongest.found.mem
        rw [List.append_assoc] at hmem
        exact absurd hmem (not_mem_unterminated hfound hx hstring hquote)
    · exact (prefix_of_ne hstarts hwhole).trans (List.prefix_append _ z)
  · obtain ⟨c, v, rfl, -⟩ := mem_leads_of_mem p hp w hw
    have hle := hlongest.length_le _ _ ⟨hstarts, List.cons_ne_nil c v, p, hp, rfl, hw⟩
    have hinside : c :: v <+: x ++ y := by
      refine List.prefix_of_prefix_length_le hstarts (List.prefix_append _ z) ?_
      rw [List.length_append]
      omega
    exact hinside.trans (List.prefix_append _ _)

end Pattern

/-! ### Divisions -/

/-- The last of the tokens, if there is one, is no trivia. -/
def Token.EndsSignificant (ts : List Token) : Prop := ∀ t ∈ ts.getLast?, t.isTrivia = false

variable {cs : List Char} {ts before after : List Token}

theorem Token.EndsSignificant.of_append (h : EndsSignificant (ts ++ before)) : EndsSignificant before := by
  intro t ht
  refine h t ?_
  rw [List.getLast?_append, Option.mem_def.mp ht]
  rfl

theorem Token.EndsSignificant.tail {t : Token} (h : EndsSignificant (t :: ts)) : EndsSignificant ts := by
  rw [← List.singleton_append] at h
  exact h.of_append

theorem lexed_semicolon : Lexed [';'] [Token.semicolon] := by
  have hbest : Rule.best [';'] = some (.semicolon, 1) := rfl
  exact .found hbest .nil

/-- A division that starts with no garbage starts with a match. -/
theorem Lexed.best_ne_none (h : Lexed cs ts) (hcs : cs ≠ []) (hhead : ∀ t ∈ ts.head?, t.kind ≠ .garbage) :
    Rule.best cs ≠ none := by
  cases h with
  | nil => exact absurd rfl hcs
  | found hbest _ => simp [hbest]
  | unmatched _ _ _ _ => exact absurd rfl (hhead _ rfl)

theorem Lexed.found_append {x rest : List Char} {kind : Kind} (hbest : Rule.best (x ++ rest) = some (kind, x.length))
    (hrest : Lexed rest ts) : Lexed (x ++ rest) (Token.ofMatch kind x ++ ts) := by
  have hdrop : (x ++ rest).drop x.length = rest := List.drop_left
  have hfound := found hbest (hdrop.symm ▸ hrest)
  rwa [List.take_left] at hfound

/-- The characters of some tokens in groups, with a `;` behind them. -/
theorem Lexed.append_semicolon (h : Lexed cs (before ++ after)) (hbefore : Paired before)
    (hlast : Token.EndsSignificant before) (hnone : ∀ t ∈ before, t.kind ≠ .unterminatedStr) :
    Lexed (Token.charsOf before ++ [';']) (before ++ [Token.semicolon]) := by
  generalize hts : before ++ after = ts at h
  induction h generalizing before with
  | nil =>
      obtain ⟨rfl, -⟩ := List.append_eq_nil_iff.mp hts
      exact lexed_semicolon
  | @found cs ts kind n hbest hrest ih =>
      by_cases hne : before = []
      · subst hne
        exact lexed_semicolon
      · obtain ⟨before, rfl, hbefore', rfl⟩ := hbefore.eq_ofMatch_append hbest hne hts.symm
        have ih := ih hbefore' hlast.of_append (fun t ht => hnone t (List.mem_append_right _ ht)) rfl
        have hlength : (cs.take n).length = n := List.length_take_of_le (Pattern.longest_of_best hbest).2
        have hsplit : cs = cs.take n ++ Token.charsOf before ++ Token.charsOf after := by
          rw [List.append_assoc, ← Token.charsOf_append, hrest.charsOf_eq, List.take_append_drop]
        rw [Token.charsOf_append, Token.charsOf_ofMatch hbest, List.append_assoc, List.append_assoc]
        generalize cs.take n = x at *
        subst hlength hsplit
        refine found_append ?_ ih
        rw [← List.append_assoc]
        refine Pattern.best_eq_of_found hbest ?_ ?_
        · rintro rfl
          exact hnone _ (List.mem_append_left _ List.mem_cons_self) rfl
        · rintro rfl hempty
          rw [hempty] at ih
          cases List.append_left_eq_self.mp (ih.unique lexed_semicolon)
          cases hlast _ rfl
  | @unmatched garbage cs ts hgarbage hfound hend hrest ih =>
      cases hbefore with
      | nil => exact lexed_semicolon
      | @plain t before _ hbefore' =>
          rw [List.cons_append] at hts
          obtain ⟨rfl, rfl⟩ := List.cons.inj hts
          have ih := ih hbefore' hlast.tail (fun t ht => hnone t (List.mem_cons_of_mem _ ht)) rfl
          have hchars : Token.charsOf (⟨.garbage, String.ofList garbage⟩ :: before) =
              garbage ++ Token.charsOf before := by
            rw [← List.singleton_append, Token.charsOf_append]
            simp [Token.charsOf]
          have hsplit : cs = Token.charsOf before ++ Token.charsOf after := by
            rw [← Token.charsOf_append, hrest.charsOf_eq]
          rw [hchars, List.append_assoc]
          refine unmatched hgarbage (fun i hi => ?_) (.inr (ih.best_ne_none (by simp) fun t ht => ?_)) ih
          · have hnone := hfound i hi
            rw [hsplit, List.drop_append_of_le_length (Nat.le_of_lt hi), ← List.append_assoc] at hnone
            rw [List.drop_append_of_le_length (Nat.le_of_lt hi), ← List.append_assoc]
            refine Pattern.best_eq_none_of_none hnone (List.append_ne_nil_of_left_ne_nil ?_ _)
            exact List.ne_nil_of_length_pos (by rw [List.length_drop]; omega)
          · cases before with
            | nil =>
                cases ht
                decide
            | cons u us => exact hrest.head?_of_best hend t ht
      | empty hq _ _ =>
          obtain ⟨rfl, -⟩ := List.cons.inj hts
          cases hq
      | full hq _ _ _ =>
          obtain ⟨rfl, -⟩ := List.cons.inj hts
          cases hq

/-- The source with a `;` behind one of its tokens. -/
theorem lex_insert_semicolon {source : String} (h : lex source = before ++ after) (hafter : Paired after)
    (hlast : Token.EndsSignificant before) (hnone : ∀ t ∈ before, t.kind ≠ .unterminatedStr) :
    lex (String.ofList (Token.charsOf before) ++ ";" ++ String.ofList (Token.charsOf after)) =
      before ++ Token.semicolon :: after := by
  have hlexed : Lexed source.toList (before ++ after) := h ▸ lexed_lex source
  have hbefore : Paired before := hlexed.paired.of_append hafter
  have hinserted := (hlexed.append_semicolon hbefore hlast hnone).append ⟨before, rfl⟩ (hlexed.behind hbefore)
  refine (lexed_lex _).unique ?_
  simpa using hinserted

end Transducer
