import Transducer.Proofs.Token.Patterns
import Transducer.Proofs.Token.Tiling

/-!
# The lexer takes the longest match

The token at a place is the longest word of any pattern there. The first character of a word tells which patterns it can
belong to, and these are two at most: a keyword is a name as well, and a string can lack its closing quote. So two
patterns with the same longest word do not have to be compared but in these cases.
-/

namespace Transducer

open Computability

namespace Pattern

variable {p q : Char → Prop} {c : Char} {w cs : List Char}

/-! ### First characters -/

instance : DecidablePred Digit := fun c => inferInstanceAs (Decidable ('0' ≤ c ∧ c ≤ '9'))

instance : DecidablePred NameStart := fun c =>
  inferInstanceAs (Decidable (('a' ≤ c ∧ c ≤ 'z' ∨ 'A' ≤ c ∧ c ≤ 'Z') ∨ c = '_'))

def keyword : Char → List Kind
  | 'i' => [.kwImport]
  | 'a' => [.kwAs]
  | 'f' => [.kwFunc]
  | 'r' => [.kwReturn]
  | 'e' => [.kwExport]
  | _ => []

def sign : Char → List Kind
  | '(' => [.parenOpen]
  | ')' => [.parenClose]
  | '[' => [.bracketOpen]
  | ']' => [.bracketClose]
  | '\x7b' => [.braceOpen]
  | '\x7d' => [.braceClose]
  | '<' => [.angleOpen]
  | '>' => [.angleClose]
  | '=' => [.equals]
  | ';' => [.semicolon]
  | ',' => [.comma]
  | ':' => [.colon]
  | '|' => [.pipe]
  | '@' => [.atSign]
  | '-' => [.minus]
  | '*' => [.star]
  | '+' => [.plus]
  | '?' => [.question]
  | '\x22' | '\x27' => [.stringLiteral, .unterminatedStr]
  | ' ' | '\t' => [.whitespace]
  | '\n' | '\r' => [.newline]
  | '#' => [.lineComment]
  | _ => []

/-- The kinds of the words that start with a character. -/
def leads (c : Char) : List Kind :=
  if NameStart c then keyword c ++ [.id] else if Digit c then [.number] else sign c

theorem leads_word {kind : Kind} {text : List Char} (h : kind ∈ leads c) :
    ∀ w ∈ ({c :: text} : Language Char), ∃ d v, w = d :: v ∧ kind ∈ leads d := by
  rintro _ rfl
  exact ⟨c, text, rfl, h⟩

theorem leads_leading {kind : Kind} (h : ∀ c, p c → kind ∈ leads c) :
    ∀ w ∈ oneOf p * (oneOf q)∗, ∃ c v, w = c :: v ∧ kind ∈ leads c := by
  intro w hw
  obtain ⟨c, v, rfl, hc, -⟩ := mem_leading.mp hw
  exact ⟨c, v, rfl, h c hc⟩

theorem leads_singleton_mul {kind : Kind} {L : Language Char} (h : kind ∈ leads c) :
    ∀ w ∈ {[c]} * L, ∃ d v, w = d :: v ∧ kind ∈ leads d := by
  intro w hw
  obtain ⟨v, -, rfl⟩ := cons_mem_singleton_mul.mp hw
  exact ⟨c, v, rfl, h⟩

theorem not_nameStart_of_digit (h : Digit c) : ¬ NameStart c := by
  rintro (hletter | rfl)
  · simp only [Digit, Letter, Char.le_def, UInt32.le_iff_toNat_le] at h hletter
    have hzero : '9'.val.toNat < 'A'.val.toNat := by decide
    have hnine : '9'.val.toNat < 'a'.val.toNat := by decide
    omega
  · exact absurd h (by decide)

theorem mem_leads_of_mem : ∀ r ∈ all, ∀ w ∈ r.words, ∃ c v, w = c :: v ∧ r.kind ∈ leads c := by
  have hname (c : Char) (hc : NameStart c) : .id ∈ leads c := by
    rw [leads, if_pos hc]
    exact List.mem_append_right _ List.mem_cons_self
  have hdigit (c : Char) (hc : Digit c) : .number ∈ leads c := by
    rw [leads, if_neg (not_nameStart_of_digit hc), if_pos hc]
    exact List.mem_cons_self
  have hblank (c : Char) (hc : Blank c) : .whitespace ∈ leads c := by
    rcases hc with rfl | rfl <;> decide
  have hnumber : ∀ w ∈ number, ∃ c v, w = c :: v ∧ .number ∈ leads c := by
    intro w hw
    rcases mem_number.mp hw with hw | ⟨u, hu, v, -, rfl⟩
    · exact leads_leading hdigit w hw
    · obtain ⟨c, u, rfl, hc⟩ := leads_leading hdigit u hu
      exact ⟨c, u ++ '.' :: v, rfl, hc⟩
  simp only [all, List.forall_mem_cons, complete, mul_assoc, unterminated, comment]
  and_intros
  all_goals first
    | exact leads_word (by decide)
    | exact leads_singleton_mul (by decide)
    | exact hnumber
    | exact leads_leading hname
    | exact leads_leading hblank
    | exact List.forall_mem_nil _

/-- Of two kinds of words that start with a character, one goes before the other. -/
theorem pairwise_leads (c : Char) :
    (leads c).Pairwise fun kind other => Outranks kind other ∧ kind.index < other.index := by
  unfold leads
  split
  · unfold keyword
    split <;> decide
  · split
    · decide
    · unfold sign
      split <;> decide

theorem eq_or_outranks {kind other : Kind} (hkind : kind ∈ leads c) (hother : other ∈ leads c)
    (hle : kind.index ≤ other.index) : other = kind ∨ Outranks kind other := by
  obtain ⟨i, hi, rfl⟩ := List.getElem_of_mem hkind
  obtain ⟨j, hj, rfl⟩ := List.getElem_of_mem hother
  have hpairs := List.pairwise_iff_getElem.mp (pairwise_leads c)
  rcases Nat.lt_trichotomy i j with hlt | rfl | hlt
  · exact .inr (hpairs i j hi hj hlt).1
  · exact .inl rfl
  · exact absurd (hpairs j i hj hi hlt).2 (Nat.not_lt.mpr hle)

/-! ### The longest match -/

/-- If two rules find equally much, the one that is listed first is taken. -/
theorem index_le_of_longest {rules : List Rule} (hsorted : rules.Pairwise fun r s => r.kind.index ≤ s.kind.index)
    {kind : Kind} {n : Nat} (h : Rule.longest rules cs = some (kind, n)) {r : Rule} (hr : r ∈ rules)
    (hmatch : r.match? cs = some n) : kind.index ≤ r.kind.index := by
  induction rules generalizing kind n with
  | nil => cases hr
  | cons first rules ih =>
      obtain ⟨hfirst, hsorted⟩ := List.pairwise_cons.mp hsorted
      have hle : first.kind.index ≤ r.kind.index := by
        obtain rfl | hr := List.mem_cons.mp hr
        · exact Nat.le_refl _
        · exact hfirst r hr
      simp only [Rule.longest] at h
      split at h
      · rename_i hnone
        obtain rfl | hr := List.mem_cons.mp hr
        · cases hnone.symm.trans hmatch
        · exact ih hsorted h hr hmatch
      · cases h
        exact hle
      · rename_i hfound hrest
        split at h
        · rename_i hlt
          cases h
          obtain rfl | hr := List.mem_cons.mp hr
          · cases hfound.symm.trans hmatch
            exact absurd hlt (Nat.lt_irrefl _)
          · exact ih hsorted hrest hr hmatch
        · cases h
          exact hle

theorem exists_mem_of_forall₂ {α β : Type} {R : α → β → Prop} {as : List α} {bs : List β} (h : List.Forall₂ R as bs)
    {a : α} (ha : a ∈ as) : ∃ b ∈ bs, R a b := by
  induction h with
  | nil => cases ha
  | cons hab _ ih =>
      obtain rfl | ha := List.mem_cons.mp ha
      · exact ⟨_, List.mem_cons_self, hab⟩
      · obtain ⟨b, hb, hR⟩ := ih ha
        exact ⟨b, List.mem_cons_of_mem _ hb, hR⟩

theorem Matches.exists_rule {kind : Kind} (h : Matches cs kind w) :
    ∃ r ∈ Rule.all, r.kind = kind ∧ ∃ n, r.match? cs = some n ∧ w.length ≤ n := by
  obtain ⟨p, hp, rfl, hw⟩ := h.mem
  obtain ⟨r, hr, hkind, hfinds⟩ := exists_mem_of_forall₂ finds_all.flip hp
  exact ⟨r, hr, hkind, hfinds.complete hw h.starts⟩

theorem matches_of_rule {r : Rule} (hr : r ∈ Rule.all) {n : Nat} (h : r.match? cs = some n) :
    Matches cs r.kind (cs.take n) ∧ n ≤ cs.length := by
  obtain ⟨p, hp, hkind, hfinds⟩ := exists_mem_of_forall₂ finds_all hr
  obtain ⟨w, hw, hstarts, rfl⟩ := hfinds.sound h
  obtain ⟨c, v, rfl, -⟩ := mem_leads_of_mem p hp w hw
  rw [← List.prefix_iff_eq_take.mp hstarts]
  exact ⟨⟨hstarts, List.cons_ne_nil c v, p, hp, hkind.symm, hw⟩, hstarts.length_le⟩

theorem best_eq_none_iff : Rule.best cs = none ↔ ∀ kind w, ¬ Matches cs kind w := by
  constructor
  · intro hbest kind w hmatches
    obtain ⟨r, hr, -, n, hmatch, -⟩ := hmatches.exists_rule
    obtain ⟨kind, m, hlongest, -⟩ := Rule.le_of_longest hr hmatch
    cases hbest.symm.trans hlongest
  · intro h
    cases hbest : Rule.best cs with
    | none => rfl
    | some found =>
        obtain ⟨r, hr, -, hmatch⟩ := Rule.mem_of_longest hbest
        exact absurd (matches_of_rule hr hmatch).1 (h _ _)

/-- Two beginnings of one text that are equally long are the same, so the kinds of both have to do with its first
character. -/
theorem longest_of_best {kind : Kind} {n : Nat} (h : Rule.best cs = some (kind, n)) :
    Longest cs kind (cs.take n) ∧ n ≤ cs.length := by
  obtain ⟨r, hr, rfl, hmatch⟩ := Rule.mem_of_longest h
  obtain ⟨hmatches, hle⟩ := matches_of_rule hr hmatch
  have hbound {other : Kind} {v : List Char} (hother : Matches cs other v) :
      ∃ s ∈ Rule.all, s.kind = other ∧ v.length ≤ n ∧ (v.length = n → s.match? cs = some n) := by
    obtain ⟨s, hs, hkind, m, hfound, hv⟩ := hother.exists_rule
    obtain ⟨kind, k, hbest, hm⟩ := Rule.le_of_longest hs hfound
    cases h.symm.trans hbest
    refine ⟨s, hs, hkind, Nat.le_trans hv hm, fun heq => ?_⟩
    rwa [show m = n by omega] at hfound
  refine ⟨⟨hmatches, fun other v hother => ?_, fun other v hother hlength => ?_⟩, hle⟩
  · obtain ⟨-, -, -, hv, -⟩ := hbound hother
    rwa [List.length_take_of_le hle]
  · rw [List.length_take_of_le hle] at hlength
    obtain ⟨s, hs, rfl, -, hfound⟩ := hbound hother
    have hsorted : Rule.all.Pairwise fun r s => r.kind.index ≤ s.kind.index := by decide
    have hword : v = cs.take n := hlength ▸ List.prefix_iff_eq_take.mp hother.starts
    obtain ⟨p, hp, hkind, hw⟩ := hmatches.mem
    obtain ⟨p', hp', hkind', hw'⟩ := hother.mem
    obtain ⟨c, u, hu, hlead⟩ := mem_leads_of_mem p hp _ hw
    obtain ⟨c', u', hu', hlead'⟩ := mem_leads_of_mem p' hp' _ hw'
    cases hu'.symm.trans (hword.trans hu)
    exact eq_or_outranks (hkind ▸ hlead) (hkind' ▸ hlead') (index_le_of_longest hsorted h hs (hfound hlength))

end Pattern

/-! ### Places where a token starts -/

variable {cs : List Char} {ts before rest : List Token}

/-- A match becomes one token, or the two quotes of a string with what stands between them. -/
theorem Token.ofMatch_cases {kind : Kind} {n : Nat} (h : Rule.best cs = some (kind, n)) :
    (∃ t, ofMatch kind (cs.take n) = [t] ∧ t.kind.isStringPart = false) ∨
      (∃ q, ofMatch kind (cs.take n) = [q, q] ∧ q.kind.isQuote = true) ∨
      ∃ q v, ofMatch kind (cs.take n) = [q, v, q] ∧ q.kind.isQuote = true ∧ v.kind = .strVal := by
  have hquote (q : Char) : (if q = '\x22' then Kind.doubleQuote else .singleQuote).isQuote = true := by
    split <;> rfl
  unfold ofMatch
  split
  · rename_i hkind
    subst hkind
    obtain ⟨quote, content, -, htake⟩ := Rule.string_of_best h
    rw [htake, List.cons_append, splitString]
    split
    · exact .inr (.inl ⟨_, rfl, hquote quote⟩)
    · exact .inr (.inr ⟨_, _, rfl, hquote quote, rfl⟩)
  · exact .inl ⟨_, rfl, Rule.not_isStringPart_of_best h⟩

/-- Tokens in groups, of which the first ones are those of a match, have all tokens of the match. -/
theorem Paired.eq_ofMatch_append {kind : Kind} {n : Nat} (hbest : Rule.best cs = some (kind, n))
    (hbefore : Paired before) (hne : before ≠ []) (h : Token.ofMatch kind (cs.take n) ++ ts = before ++ rest) :
    ∃ before', before = Token.ofMatch kind (cs.take n) ++ before' ∧ Paired before' ∧ ts = before' ++ rest := by
  have hpart {k : Kind} (hk : k.isQuote = true) : k.isStringPart = true ∧ k ≠ .strVal := by
    rw [Kind.isQuote, Bool.or_eq_true, beq_iff_eq, beq_iff_eq] at hk
    rcases hk with rfl | rfl <;> decide
  rcases Token.ofMatch_cases hbest with ⟨t, hmatch, ht⟩ | ⟨q, hmatch, hq⟩ | ⟨q, v, hmatch, hq, hv⟩
  · rw [hmatch] at h ⊢
    cases hbefore with
    | nil => exact absurd rfl hne
    | plain _ hts =>
        obtain ⟨rfl, rfl⟩ := List.cons.inj h
        exact ⟨_, rfl, hts, rfl⟩
    | empty hq _ _ =>
        obtain ⟨rfl, -⟩ := List.cons.inj h
        cases ht.symm.trans (hpart hq).1
    | full hq _ _ _ =>
        obtain ⟨rfl, -⟩ := List.cons.inj h
        cases ht.symm.trans (hpart hq).1
  · rw [hmatch] at h ⊢
    cases hbefore with
    | nil => exact absurd rfl hne
    | plain ht _ =>
        obtain ⟨rfl, -⟩ := List.cons.inj h
        cases ht.symm.trans (hpart hq).1
    | empty _ _ hts =>
        obtain ⟨rfl, htail⟩ := List.cons.inj h
        obtain ⟨rfl, rfl⟩ := List.cons.inj htail
        exact ⟨_, rfl, hts, rfl⟩
    | full _ hv _ _ =>
        obtain ⟨rfl, htail⟩ := List.cons.inj h
        obtain ⟨rfl, -⟩ := List.cons.inj htail
        exact absurd hv (hpart hq).2
  · rw [hmatch] at h ⊢
    cases hbefore with
    | nil => exact absurd rfl hne
    | plain ht _ =>
        obtain ⟨rfl, -⟩ := List.cons.inj h
        cases ht.symm.trans (hpart hq).1
    | empty _ hr _ =>
        obtain ⟨rfl, htail⟩ := List.cons.inj h
        obtain ⟨rfl, -⟩ := List.cons.inj htail
        exact absurd (hr.symm.trans hv) (hpart hq).2
    | full _ _ _ hts =>
        obtain ⟨rfl, htail⟩ := List.cons.inj h
        obtain ⟨rfl, hlast⟩ := List.cons.inj htail
        obtain ⟨rfl, rfl⟩ := List.cons.inj hlast
        exact ⟨_, rfl, hts, rfl⟩

theorem Lexed.behind (h : Lexed cs (before ++ rest)) (hbefore : Paired before) : Lexed (Token.charsOf rest) rest := by
  generalize hts : before ++ rest = ts at h
  induction h generalizing before with
  | nil =>
      obtain ⟨rfl, rfl⟩ := List.append_eq_nil_iff.mp hts
      exact .nil
  | @found cs ts kind n hbest hrest ih =>
      by_cases hne : before = []
      · subst hne
        have hlexed := found hbest hrest
        rw [List.nil_append] at hts
        rw [hts, hlexed.charsOf_eq]
        exact hlexed
      · obtain ⟨before', -, hbefore', rfl⟩ := hbefore.eq_ofMatch_append hbest hne hts.symm
        exact ih hbefore' rfl
  | @unmatched garbage cs ts hgarbage hnone hend hrest ih =>
      cases hbefore with
      | nil =>
          have hlexed := unmatched hgarbage hnone hend hrest
          rw [List.nil_append] at hts
          rw [hts, hlexed.charsOf_eq]
          exact hlexed
      | plain _ hbefore' => exact ih hbefore' (List.cons.inj hts).2
      | empty hq _ _ =>
          obtain ⟨rfl, -⟩ := List.cons.inj hts
          cases hq
      | full hq _ _ _ =>
          obtain ⟨rfl, -⟩ := List.cons.inj hts
          cases hq

/-- The number of quotes among some tokens. -/
def Token.quotes (ts : List Token) : Nat := ts.countP fun t => t.kind.isQuote

theorem Token.quotes_cons_of_isQuote {t : Token} (h : t.kind.isQuote = true) (ts : List Token) :
    quotes (t :: ts) = quotes ts + 1 :=
  List.countP_cons_of_pos h

theorem Token.quotes_cons_of_not_isQuote {t : Token} (h : t.kind.isQuote = false) (ts : List Token) :
    quotes (t :: ts) = quotes ts :=
  List.countP_cons_of_neg (by simp [h])

theorem Paired.even_quotes (h : Paired ts) : Token.quotes ts % 2 = 0 := by
  induction h with
  | nil => rfl
  | plain ht _ ih =>
      rw [Kind.isStringPart, Bool.or_eq_false_iff] at ht
      rwa [Token.quotes_cons_of_not_isQuote ht.1]
  | empty hq hr _ ih =>
      rw [Token.quotes_cons_of_isQuote hq, Token.quotes_cons_of_isQuote (hr.symm ▸ hq)]
      omega
  | full hq hv hr _ ih =>
      rw [Token.quotes_cons_of_isQuote hq, Token.quotes_cons_of_not_isQuote (by rw [hv]; rfl),
        Token.quotes_cons_of_isQuote (hr.symm ▸ hq)]
      omega

/-- Tokens in groups are cut between two groups, or inside of a string. -/
theorem Paired.cut (h : Paired (before ++ rest)) :
    Paired before ∨ Token.quotes rest % 2 = 1 ∧ ∃ t ∈ rest.head?, t.kind.isStringPart = true := by
  have hquote {k : Kind} (hk : k.isQuote = true) : k.isStringPart = true := by rw [Kind.isStringPart, hk, Bool.true_or]
  generalize hts : before ++ rest = ts at h
  induction h generalizing before with
  | nil =>
      obtain ⟨rfl, -⟩ := List.append_eq_nil_iff.mp hts
      exact .inl .nil
  | plain hplain _ ih =>
      cases before with
      | nil => exact .inl .nil
      | cons u us =>
          obtain ⟨rfl, htail⟩ := List.cons.inj hts
          exact (ih htail).imp_left (.plain hplain)
  | empty hq hr htail ih =>
      have hclosing := Token.quotes_cons_of_isQuote (hr.symm ▸ hq)
      rcases before with _ | ⟨u, _ | ⟨u', us⟩⟩
      · exact .inl .nil
      · obtain ⟨-, rfl⟩ := List.cons.inj hts
        rw [hclosing]
        exact .inr ⟨by have := htail.even_quotes; omega, _, rfl, hquote (hr.symm ▸ hq)⟩
      · obtain ⟨rfl, hrest⟩ := List.cons.inj hts
        obtain ⟨rfl, hlast⟩ := List.cons.inj hrest
        exact (ih hlast).imp_left (.empty hq hr)
  | full hq hv hr htail ih =>
      have hclosing := Token.quotes_cons_of_isQuote (hr.symm ▸ hq)
      rcases before with _ | ⟨u, _ | ⟨u', _ | ⟨u'', us⟩⟩⟩
      · exact .inl .nil
      · obtain ⟨-, rfl⟩ := List.cons.inj hts
        rw [Token.quotes_cons_of_not_isQuote (by rw [hv]; rfl), hclosing]
        exact .inr ⟨by have := htail.even_quotes; omega, _, rfl, by rw [hv]; rfl⟩
      · obtain ⟨-, hts⟩ := List.cons.inj hts
        obtain ⟨-, rfl⟩ := List.cons.inj hts
        rw [hclosing]
        exact .inr ⟨by have := htail.even_quotes; omega, _, rfl, hquote (hr.symm ▸ hq)⟩
      · obtain ⟨rfl, hrest⟩ := List.cons.inj hts
        obtain ⟨rfl, hclosed⟩ := List.cons.inj hrest
        obtain ⟨rfl, hlast⟩ := List.cons.inj hclosed
        exact (ih hlast).imp_left (.full hq hv hr)

/-- In front of a token that is no part of a string all groups are whole. -/
theorem Paired.front {t : Token} {after : List Token} (h : Paired (before ++ t :: after))
    (ht : t.kind.isStringPart = false) : Paired before := by
  refine h.cut.resolve_right ?_
  rintro ⟨-, u, hu, hpart⟩
  cases hu
  cases ht.symm.trans hpart

theorem Paired.of_append (h : Paired (before ++ rest)) (hrest : Paired rest) : Paired before := by
  refine h.cut.resolve_right ?_
  rintro ⟨hodd, -⟩
  cases hrest.even_quotes.symm.trans hodd

/-- Wherever a token starts, the lexer takes the longest match of the patterns. If several patterns match equally much,
a keyword goes before a name, and a complete string before one that is not terminated. The match becomes one token, or
the quotes and the content of a string. If no pattern matches, the character becomes part of a garbage token, and no
pattern matches at any of the characters of such a token. -/
theorem lex_takes_longest_match {source : String} (h : lex source = before ++ rest) :
    source.toList = Token.charsOf before ++ Token.charsOf rest ∧
      (Paired before → rest ≠ [] →
        ((∃ kind w, Pattern.Matches (Token.charsOf rest) kind w) →
          ∃ kind w after, Pattern.Longest (Token.charsOf rest) kind w ∧ rest = Token.ofMatch kind w ++ after ∧
            Token.charsOf (Token.ofMatch kind w) = w) ∧
        ((¬ ∃ kind w, Pattern.Matches (Token.charsOf rest) kind w) →
          ∃ text after, rest = ⟨.garbage, text⟩ :: after)) ∧
      ∀ text after, rest = ⟨.garbage, text⟩ :: after →
        ∀ i < text.length, ¬ ∃ kind w, Pattern.Matches ((Token.charsOf rest).drop i) kind w := by
  have hlexed : Lexed source.toList (before ++ rest) := h ▸ lexed_lex source
  refine ⟨?_, fun hbefore hne => ⟨?_, fun hnone => ?_⟩, fun text after hrest i hi => ?_⟩
  · rw [← hlexed.charsOf_eq, Token.charsOf_append]
  · rintro ⟨other, v, hmatches⟩
    have hbehind := hlexed.behind hbefore
    generalize Token.charsOf rest = cs at hbehind hmatches ⊢
    cases hbehind with
    | nil => exact absurd rfl hne
    | @found _ ts kind n hbest hrest =>
        exact ⟨kind, cs.take n, ts, (Pattern.longest_of_best hbest).1, rfl, Token.charsOf_ofMatch hbest⟩
    | unmatched hgarbage hnone _ _ =>
        have hstart := hnone 0 (List.length_pos_iff.mpr hgarbage)
        exact absurd hmatches (Pattern.best_eq_none_iff.mp hstart other v)
  · have hbehind := hlexed.behind hbefore
    generalize Token.charsOf rest = cs at hbehind hnone
    cases hbehind with
    | nil => exact absurd rfl hne
    | found hbest _ => exact absurd ⟨_, _, (Pattern.longest_of_best hbest).1.found⟩ hnone
    | unmatched _ _ _ _ => exact ⟨_, _, rfl⟩
  · subst hrest
    have hbehind := hlexed.behind (hlexed.paired.front rfl)
    generalize Token.charsOf (⟨.garbage, text⟩ :: after) = cs at hbehind ⊢
    rintro ⟨kind, w, hmatches⟩
    have hhead (hbest : Rule.best cs ≠ none) : Kind.garbage ≠ .garbage := hbehind.head?_of_best (.inr hbest) _ rfl
    generalize hts : ⟨.garbage, text⟩ :: after = ts at hbehind
    cases hbehind with
    | nil => cases hts
    | found hbest _ => exact absurd rfl (hhead (by simp [hbest]))
    | unmatched _ hnone _ _ =>
        obtain ⟨heq, -⟩ := List.cons.inj hts
        cases heq
        rw [String.length_ofList] at hi
        exact Pattern.best_eq_none_iff.mp (hnone i hi) kind w hmatches

/-- An escaped quote does not end a string. -/
theorem lex_takes_longest_match_of_string :
    let string : List Token := [⟨.singleQuote, "'"⟩, ⟨.strVal, "\\'a"⟩, ⟨.singleQuote, "'"⟩]
    lex "as'\\'a'$" = ⟨.kwAs, "as"⟩ :: string ++ [⟨.garbage, "$"⟩] ∧
      (∃ kind w after, Pattern.Longest (Token.charsOf (string ++ [⟨.garbage, "$"⟩])) kind w ∧
        string ++ [⟨.garbage, "$"⟩] = Token.ofMatch kind w ++ after ∧ Token.charsOf (Token.ofMatch kind w) = w) ∧
      ¬ ∃ kind w, Pattern.Matches ['$'] kind w := by
  intro string
  have hlex : lex "as'\\'a'$" = [⟨.kwAs, "as"⟩] ++ (string ++ [⟨.garbage, "$"⟩]) := by decide
  have hlex' : lex "as'\\'a'$" = [⟨.kwAs, "as"⟩] ++ string ++ [⟨.garbage, "$"⟩] := hlex
  have hmatches : Pattern.Matches (Token.charsOf (string ++ [⟨.garbage, "$"⟩])) .stringLiteral
      ['\x27', '\\', '\x27', 'a', '\x27'] := by
    refine ⟨⟨['$'], by decide⟩, List.cons_ne_nil _ _, ⟨.stringLiteral, Pattern.complete '\x27'⟩, ?_, rfl, ?_⟩
    · simp [Pattern.all]
    · exact Pattern.mem_complete.mpr
        ⟨['\\', '\x27', 'a'], .escape (by decide) (.plain (by decide) (by decide) .nil), rfl⟩
  obtain ⟨-, hlongest, -⟩ := lex_takes_longest_match hlex
  obtain ⟨-, -, hgarbage⟩ := lex_takes_longest_match hlex'
  refine ⟨hlex, (hlongest (.plain rfl .nil) (List.cons_ne_nil _ _)).1 ⟨_, _, hmatches⟩, ?_⟩
  exact hgarbage "$" [] rfl 0 (by decide)

end Transducer
