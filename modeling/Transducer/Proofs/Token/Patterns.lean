import Mathlib.Computability.Language
import Transducer.Token.Rule

/-!
# Patterns of tokens

The tokens of the language are given by patterns, one regular language of characters for each rule. The rules look for
the longest beginning of the input that belongs to their language, each in its own way, and they are shown to find it.
-/

namespace Transducer

open Computability

structure Pattern where
  kind : Kind
  words : Language Char

namespace Pattern

/-! ### Patterns -/

/-- Words of one character. -/
def oneOf (p : Char → Prop) : Language Char := {w | ∃ c, p c ∧ w = [c]}

def Digit (c : Char) : Prop := '0' ≤ c ∧ c ≤ '9'

def Letter (c : Char) : Prop := 'a' ≤ c ∧ c ≤ 'z' ∨ 'A' ≤ c ∧ c ≤ 'Z'

def NameStart (c : Char) : Prop := Letter c ∨ c = '_'

def NameRest (c : Char) : Prop := Letter c ∨ Digit c ∨ c = '_' ∨ c = '.'

def Blank (c : Char) : Prop := c = ' ' ∨ c = '\t'

/-- What can stand between two quotes. A backslash escapes the next character, which cannot be a line end. -/
def content (quote : Char) : Language Char :=
  (oneOf (fun c => c ≠ quote ∧ c ≠ '\\') + {['\\']} * oneOf (· ≠ '\n'))∗

def complete (quote : Char) : Language Char := {[quote]} * content quote * {[quote]}

def unterminated (quote : Char) : Language Char := {[quote]} * content quote

def digits : Language Char := oneOf Digit * (oneOf Digit)∗

def number : Language Char := digits * (1 + {['.']} * digits)

def identifier : Language Char := oneOf NameStart * (oneOf NameRest)∗

def blanks : Language Char := oneOf Blank * (oneOf Blank)∗

def comment : Language Char := {['#']} * (oneOf (· ≠ '\n'))∗

def all : List Pattern :=
  [⟨.parenOpen, {['(']}⟩, ⟨.parenClose, {[')']}⟩, ⟨.bracketOpen, {['[']}⟩, ⟨.bracketClose, {[']']}⟩,
    ⟨.braceOpen, {['\x7b']}⟩, ⟨.braceClose, {['\x7d']}⟩, ⟨.angleOpen, {['<']}⟩, ⟨.angleClose, {['>']}⟩,
    ⟨.equals, {['=']}⟩, ⟨.semicolon, {[';']}⟩, ⟨.comma, {[',']}⟩, ⟨.colon, {[':']}⟩, ⟨.pipe, {['|']}⟩,
    ⟨.atSign, {['@']}⟩, ⟨.minus, {['-']}⟩, ⟨.star, {['*']}⟩, ⟨.plus, {['+']}⟩, ⟨.question, {['?']}⟩,
    ⟨.stringLiteral, complete '\x22'⟩, ⟨.stringLiteral, complete '\x27'⟩,
    ⟨.unterminatedStr, unterminated '\x22'⟩, ⟨.unterminatedStr, unterminated '\x27'⟩,
    ⟨.kwImport, {['i', 'm', 'p', 'o', 'r', 't']}⟩, ⟨.kwAs, {['a', 's']}⟩, ⟨.kwFunc, {['f', 'u', 'n', 'c']}⟩,
    ⟨.kwReturn, {['r', 'e', 't', 'u', 'r', 'n']}⟩, ⟨.kwExport, {['e', 'x', 'p', 'o', 'r', 't']}⟩,
    ⟨.number, number⟩, ⟨.id, identifier⟩, ⟨.whitespace, blanks⟩, ⟨.newline, {['\n']}⟩, ⟨.newline, {['\r', '\n']}⟩,
    ⟨.lineComment, comment⟩]

/-- Some pattern of the kind has the word, which is a beginning of the characters and not empty. -/
structure Matches (cs : List Char) (kind : Kind) (w : List Char) : Prop where
  starts : w <+: cs
  ne_nil : w ≠ []
  mem : ∃ p ∈ all, p.kind = kind ∧ w ∈ p.words

/-- Which kind a word has that two patterns match. -/
def Outranks (kind other : Kind) : Prop :=
  kind ∈ [Kind.kwImport, .kwAs, .kwFunc, .kwReturn, .kwExport] ∧ other = .id ∨
    kind = .stringLiteral ∧ other = .unterminatedStr

instance (kind other : Kind) : Decidable (Outranks kind other) :=
  inferInstanceAs (Decidable (kind ∈ [Kind.kwImport, .kwAs, .kwFunc, .kwReturn, .kwExport] ∧ other = .id ∨
    kind = .stringLiteral ∧ other = .unterminatedStr))

/-- The word is a longest match of the patterns, and its kind goes before those of other matches of this length. -/
structure Longest (cs : List Char) (kind : Kind) (w : List Char) : Prop where
  found : Matches cs kind w
  length_le : ∀ other v, Matches cs other v → v.length ≤ w.length
  preferred : ∀ other v, Matches cs other v → v.length = w.length → other = kind ∨ Outranks kind other

/-! ### Words -/

variable {p q : Char → Prop} {quote c : Char} {w cs : List Char}

theorem cons_mem_singleton_mul {L : Language Char} : w ∈ {[c]} * L ↔ ∃ v ∈ L, w = c :: v := by
  rw [Language.mem_mul]
  constructor
  · rintro ⟨_, rfl, v, hv, rfl⟩
    exact ⟨v, hv, rfl⟩
  · rintro ⟨v, hv, rfl⟩
    exact ⟨[c], rfl, v, hv, rfl⟩

theorem mem_star_oneOf : w ∈ (oneOf p)∗ ↔ ∀ c ∈ w, p c := by
  rw [Language.mem_kstar]
  constructor
  · rintro ⟨parts, rfl, hparts⟩ c hc
    obtain ⟨part, hpart, hc⟩ := List.mem_flatten.mp hc
    obtain ⟨d, hd, rfl⟩ := hparts part hpart
    exact List.mem_singleton.mp hc ▸ hd
  · intro h
    refine ⟨w.map fun c => [c], by simp [← List.flatMap_def], fun part hpart => ?_⟩
    obtain ⟨c, hc, rfl⟩ := List.mem_map.mp hpart
    exact ⟨c, h c hc, rfl⟩

theorem mem_leading : w ∈ oneOf p * (oneOf q)∗ ↔ ∃ c v, w = c :: v ∧ p c ∧ ∀ d ∈ v, q d := by
  rw [Language.mem_mul]
  constructor
  · rintro ⟨_, ⟨c, hc, rfl⟩, v, hv, rfl⟩
    exact ⟨c, v, rfl, hc, mem_star_oneOf.mp hv⟩
  · rintro ⟨c, v, rfl, hc, hv⟩
    exact ⟨[c], ⟨c, hc, rfl⟩, v, mem_star_oneOf.mpr hv, rfl⟩

/-- String content, item by item. -/
inductive Content (quote : Char) : List Char → Prop where
  | nil : Content quote []
  | plain {c : Char} {w : List Char} (hquote : c ≠ quote) (hslash : c ≠ '\\') (hw : Content quote w) :
      Content quote (c :: w)
  | escape {c : Char} {w : List Char} (hc : c ≠ '\n') (hw : Content quote w) : Content quote ('\\' :: c :: w)

theorem mem_content_iff : w ∈ content quote ↔ Content quote w := by
  rw [content, Language.mem_kstar]
  constructor
  · rintro ⟨parts, rfl, hparts⟩
    induction parts with
    | nil => exact .nil
    | cons part parts ih =>
        obtain ⟨hpart, hrest⟩ := List.forall_mem_cons.mp hparts
        rcases (Language.mem_add _ _ _).mp hpart with ⟨c, hc, rfl⟩ | hescape
        · exact .plain hc.1 hc.2 (ih hrest)
        · obtain ⟨_, ⟨c, hc, rfl⟩, rfl⟩ := cons_mem_singleton_mul.mp hescape
          exact .escape hc (ih hrest)
  · intro h
    induction h with
    | nil => exact ⟨[], rfl, fun _ hpart => nomatch hpart⟩
    | @plain c _ hquote hslash _ ih =>
        obtain ⟨parts, rfl, hparts⟩ := ih
        refine ⟨[c] :: parts, rfl, List.forall_mem_cons.mpr ⟨?_, hparts⟩⟩
        exact (Language.mem_add _ _ _).mpr (.inl ⟨c, ⟨hquote, hslash⟩, rfl⟩)
    | @escape c _ hc _ ih =>
        obtain ⟨parts, rfl, hparts⟩ := ih
        refine ⟨['\\', c] :: parts, rfl, List.forall_mem_cons.mpr ⟨?_, hparts⟩⟩
        exact (Language.mem_add _ _ _).mpr (.inr (cons_mem_singleton_mul.mpr ⟨[c], ⟨c, hc, rfl⟩, rfl⟩))

theorem mem_unterminated : w ∈ unterminated quote ↔ ∃ v, Content quote v ∧ w = quote :: v := by
  simp only [unterminated, cons_mem_singleton_mul, mem_content_iff]

theorem mem_complete : w ∈ complete quote ↔ ∃ v, Content quote v ∧ w = quote :: v ++ [quote] := by
  rw [complete, Language.mem_mul]
  constructor
  · rintro ⟨_, hopened, _, rfl, rfl⟩
    obtain ⟨v, hv, rfl⟩ := mem_unterminated.mp hopened
    exact ⟨v, hv, rfl⟩
  · rintro ⟨v, hv, rfl⟩
    exact ⟨quote :: v, mem_unterminated.mpr ⟨v, hv, rfl⟩, [quote], rfl, rfl⟩

theorem mem_digits : w ∈ digits ↔ w ≠ [] ∧ ∀ c ∈ w, Digit c := by
  rw [digits, mem_leading]
  constructor
  · rintro ⟨c, v, rfl, hc, hv⟩
    exact ⟨List.cons_ne_nil c v, List.forall_mem_cons.mpr ⟨hc, hv⟩⟩
  · rintro ⟨hne, hall⟩
    obtain ⟨c, v, rfl⟩ := List.exists_cons_of_ne_nil hne
    obtain ⟨hc, hv⟩ := List.forall_mem_cons.mp hall
    exact ⟨c, v, rfl, hc, hv⟩

theorem mem_number : w ∈ number ↔ w ∈ digits ∨ ∃ u ∈ digits, ∃ v ∈ digits, w = u ++ '.' :: v := by
  rw [number, mul_add, mul_one, Language.mem_add, Language.mem_mul]
  constructor
  · rintro (h | ⟨u, hu, _, hfraction, rfl⟩)
    · exact .inl h
    · obtain ⟨v, hv, rfl⟩ := cons_mem_singleton_mul.mp hfraction
      exact .inr ⟨u, hu, v, hv, rfl⟩
  · rintro (h | ⟨u, hu, v, hv, rfl⟩)
    · exact .inl h
    · exact .inr ⟨u, hu, _, cons_mem_singleton_mul.mpr ⟨v, hv, rfl⟩, rfl⟩

/-! ### Rules -/

/-- The rule finds the longest word of the language that the input starts with. -/
structure Finds (f : List Char → Option Nat) (L : Language Char) : Prop where
  sound : ∀ {cs n}, f cs = some n → ∃ w ∈ L, w <+: cs ∧ w.length = n
  complete : ∀ {cs w}, w ∈ L → w <+: cs → ∃ n, f cs = some n ∧ w.length ≤ n

theorem finds_exactly (text : List Char) : Finds (Rule.exactly text) {text} where
  sound {cs n} h := by
    unfold Rule.exactly at h
    split at h
    · rename_i hstarts
      cases h
      exact ⟨text, rfl, List.isPrefixOf_iff_prefix.mp hstarts, rfl⟩
    · cases h
  complete {cs w} hw hstarts := by
    cases hw
    exact ⟨_, if_pos (List.isPrefixOf_iff_prefix.mpr hstarts), Nat.le_refl _⟩

/-- A character of one class, and then as many of another one as there are. -/
theorem finds_leading {f : List Char → Option Nat} {first rest : Char → Bool} (hnil : f [] = none)
    (hcons : ∀ c cs, f (c :: cs) = if first c then some ((cs.takeWhile rest).length + 1) else none)
    (hfirst : ∀ c, first c = true ↔ p c) (hrest : ∀ c, rest c = true ↔ q c) : Finds f (oneOf p * (oneOf q)∗) where
  sound {cs n} h := by
    cases cs with
    | nil => cases hnil.symm.trans h
    | cons c cs =>
        rw [hcons] at h
        split at h
        · rename_i hc
          cases h
          refine ⟨c :: cs.takeWhile rest, mem_leading.mpr ⟨c, _, rfl, (hfirst c).mp hc, fun d hd => ?_⟩,
            List.cons_prefix_cons.mpr ⟨rfl, List.takeWhile_prefix rest⟩, rfl⟩
          exact (hrest d).mp (List.all_eq_true.mp List.all_takeWhile d hd)
        · cases h
  complete {cs w} hw hstarts := by
    obtain ⟨c, v, rfl, hc, hv⟩ := mem_leading.mp hw
    obtain ⟨ds, rfl⟩ := hstarts
    refine ⟨_, (hcons c (v ++ ds)).trans (if_pos ((hfirst c).mpr hc)), ?_⟩
    rw [List.takeWhile_append_of_pos fun d hd => (hrest d).mpr (hv d hd), List.length_cons, List.length_append]
    omega

theorem run_cons (p : Char → Bool) (c : Char) (cs : List Char) :
    Rule.run p (c :: cs) = if p c then some ((cs.takeWhile p).length + 1) else none := by
  rw [Rule.run, List.takeWhile_cons]
  cases p c <;> rfl

theorem finds_run {p : Char → Bool} (h : ∀ c, p c = true ↔ q c) : Finds (Rule.run p) (oneOf q * (oneOf q)∗) :=
  finds_leading rfl (run_cons p) h h

theorem isDigit_iff (c : Char) : c.isDigit = true ↔ Digit c := by
  rw [Char.isDigit, Bool.and_eq_true, decide_eq_true_iff, decide_eq_true_iff]
  rfl

theorem isAlpha_iff (c : Char) : c.isAlpha = true ↔ Letter c := by
  have hupper : c.isUpper = true ↔ 'A' ≤ c ∧ c ≤ 'Z' := decide_eq_true_iff
  have hlower : c.isLower = true ↔ 'a' ≤ c ∧ c ≤ 'z' :=
    Bool.and_eq_true_iff.trans (and_congr decide_eq_true_iff decide_eq_true_iff)
  exact Bool.or_eq_true_iff.trans (or_comm.trans (or_congr hlower hupper))

theorem isNameStart_iff (c : Char) : Rule.isNameStart c = true ↔ NameStart c := by
  rw [Rule.isNameStart, Bool.or_eq_true, beq_iff_eq, isAlpha_iff]
  rfl

theorem isNameRest_iff (c : Char) : Rule.isNameRest c = true ↔ NameRest c := by
  rw [Rule.isNameRest, Bool.or_eq_true, Bool.or_eq_true, beq_iff_eq, beq_iff_eq, Char.isAlphanum, Bool.or_eq_true,
    isAlpha_iff, isDigit_iff]
  simp only [NameRest, or_assoc]

theorem finds_identifier : Finds Rule.identifier identifier :=
  finds_leading rfl (fun _ _ => rfl) isNameStart_iff isNameRest_iff

theorem finds_comment : Finds Rule.comment comment := by
  have hleading : comment = oneOf (· = '#') * (oneOf (· ≠ '\n'))∗ := by
    rw [comment]
    congr 1
    ext w
    exact ⟨fun h => ⟨'#', rfl, h⟩, fun ⟨_, hc, hw⟩ => hc ▸ hw⟩
  rw [hleading]
  have hcons (c : Char) (cs : List Char) : Rule.comment (c :: cs) =
      if c == '#' then some ((cs.takeWhile fun d => d != '\n').length + 1) else none := by
    simp only [Rule.comment, beq_iff_eq]
  exact finds_leading rfl hcons (fun _ => beq_iff_eq) fun _ => bne_iff_ne

/-- The digits before a point are all digits that there are, because a point is none. -/
theorem finds_number : Finds Rule.number number where
  sound {cs n} h := by
    have hdigits := finds_run isDigit_iff
    unfold Rule.number at h
    split at h
    · cases h
    · rename_i k hrun
      obtain ⟨u, hu, ⟨rest, rfl⟩, rfl⟩ := hdigits.sound hrun
      rw [List.drop_left] at h
      split at h
      · rename_i rest
        split at h
        · rename_i m hfraction
          obtain ⟨v, hv, hstarts, rfl⟩ := hdigits.sound hfraction
          cases h
          refine ⟨u ++ '.' :: v, mem_number.mpr (.inr ⟨u, hu, v, hv, rfl⟩), ?_, ?_⟩
          · exact (List.prefix_append_right_inj u).mpr (List.cons_prefix_cons.mpr ⟨rfl, hstarts⟩)
          · rw [List.length_append, List.length_cons]
            omega
        · cases h
          exact ⟨u, mem_number.mpr (.inl hu), List.prefix_append u _, rfl⟩
      · cases h
        exact ⟨u, mem_number.mpr (.inl hu), List.prefix_append u _, rfl⟩
  complete {cs w} hw hstarts := by
    have hdigits := finds_run isDigit_iff
    unfold Rule.number
    rcases mem_number.mp hw with hw | ⟨u, hu, v, hv, rfl⟩
    · obtain ⟨n, hrun, hle⟩ := hdigits.complete hw hstarts
      rw [hrun]
      dsimp only
      split
      · split
        · exact ⟨_, rfl, by omega⟩
        · exact ⟨n, rfl, hle⟩
      · exact ⟨n, rfl, hle⟩
    · obtain ⟨rest, rfl⟩ := hstarts
      obtain ⟨hne, hu⟩ := mem_digits.mp hu
      have hrun : Rule.run Char.isDigit (u ++ '.' :: (v ++ rest)) = some u.length := by
        obtain ⟨k, hk⟩ : ∃ k, u.length = k + 1 := Nat.exists_eq_succ_of_ne_zero (mt List.length_eq_zero_iff.mp hne)
        have hstop : ('.' :: (v ++ rest)).takeWhile Char.isDigit = [] := rfl
        rw [Rule.run, List.takeWhile_append_of_pos fun c hc => (isDigit_iff c).mpr (hu c hc), hstop, List.append_nil,
          hk]
      obtain ⟨m, hfraction, hle⟩ := hdigits.complete hv (List.prefix_append v rest)
      rw [List.append_assoc, List.cons_append, hrun]
      dsimp only
      rw [List.drop_left]
      simp only [hfraction]
      refine ⟨_, rfl, ?_⟩
      rw [List.length_append, List.length_cons]
      omega

theorem Content.length_append (h : Content quote w) (ds : List Char) :
    Rule.contentLength quote (w ++ ds) = w.length + Rule.contentLength quote ds := by
  induction h with
  | nil => exact (Nat.zero_add _).symm
  | plain hquote hslash _ ih =>
      rw [List.cons_append, Rule.contentLength, if_neg hquote, ih, List.length_cons]
      · omega
      · exact hslash
  | escape hc _ ih =>
      rw [List.cons_append, List.cons_append, Rule.contentLength, if_neg hc, ih, List.length_cons, List.length_cons]
      omega

theorem content_take (quote : Char) (cs : List Char) :
    Content quote (cs.take (Rule.contentLength quote cs)) ∧ Rule.contentLength quote cs ≤ cs.length := by
  fun_induction Rule.contentLength quote cs with
  | case1 => exact ⟨.nil, Nat.le_refl 0⟩
  | case2 => exact ⟨.nil, Nat.zero_le _⟩
  | case3 => exact ⟨.nil, Nat.zero_le _⟩
  | case4 c cs hc ih => exact ⟨.escape hc ih.1, Nat.add_le_add_right ih.2 2⟩
  | case5 => exact ⟨.nil, Nat.zero_le _⟩
  | case6 c cs hslash hc ih => exact ⟨.plain hc hslash ih.1, Nat.add_le_add_right ih.2 1⟩

theorem finds_unterminated (quote : Char) : Finds (Rule.unterminated quote) (unterminated quote) where
  sound {cs n} h := by
    cases cs with
    | nil => cases h
    | cons c cs =>
        simp only [Rule.unterminated] at h
        split at h
        · rename_i hc
          cases h
          obtain ⟨hcontent, hle⟩ := content_take quote cs
          refine ⟨quote :: cs.take (Rule.contentLength quote cs), mem_unterminated.mpr ⟨_, hcontent, rfl⟩, ?_, ?_⟩
          · exact List.cons_prefix_cons.mpr ⟨hc.symm, List.take_prefix _ cs⟩
          · rw [List.length_cons, List.length_take_of_le hle]
        · cases h
  complete {cs w} hw hstarts := by
    obtain ⟨v, hv, rfl⟩ := mem_unterminated.mp hw
    obtain ⟨rest, rfl⟩ := hstarts
    refine ⟨v.length + Rule.contentLength quote rest + 1, ?_, ?_⟩
    · rw [List.cons_append, Rule.unterminated, if_pos rfl, hv.length_append]
    · rw [List.length_cons]
      omega

theorem contentLength_quote (hslash : quote ≠ '\\') (ds : List Char) : Rule.contentLength quote (quote :: ds) = 0 := by
  rw [Rule.contentLength, if_pos rfl]
  exact hslash

theorem finds_complete (hslash : quote ≠ '\\') : Finds (Rule.complete quote) (complete quote) where
  sound {cs n} h := by
    cases cs with
    | nil => cases h
    | cons c cs =>
        simp only [Rule.complete] at h
        split at h
        · rename_i hc
          cases h
          obtain ⟨hcontent, hle⟩ := content_take quote cs
          refine ⟨quote :: cs.take (Rule.contentLength quote cs) ++ [quote],
            mem_complete.mpr ⟨_, hcontent, rfl⟩, ?_, ?_⟩
          · have hclosed : cs.take (Rule.contentLength quote cs + 1) =
                cs.take (Rule.contentLength quote cs) ++ [quote] := by
              rw [List.take_add_one, hc.2, Option.toList_some]
            rw [List.cons_append, ← hclosed]
            exact List.cons_prefix_cons.mpr ⟨hc.1.symm, List.take_prefix _ cs⟩
          · rw [List.length_append, List.length_cons, List.length_take_of_le hle, List.length_singleton]
        · cases h
  complete {cs w} hw hstarts := by
    obtain ⟨v, hv, rfl⟩ := mem_complete.mp hw
    obtain ⟨rest, rfl⟩ := hstarts
    have hlength : Rule.contentLength quote (v ++ quote :: rest) = v.length := by
      rw [hv.length_append, contentLength_quote hslash, Nat.add_zero]
    have hclosed : (v ++ quote :: rest)[Rule.contentLength quote (v ++ quote :: rest)]? = some quote := by
      rw [hlength, List.getElem?_append_right (Nat.le_refl _), Nat.sub_self]
      rfl
    refine ⟨v.length + 2, ?_, ?_⟩
    · rw [List.append_assoc, List.cons_append, List.singleton_append, Rule.complete, if_pos ⟨rfl, hclosed⟩, hlength]
    · rw [List.length_append, List.length_cons, List.length_singleton]

theorem finds_all : List.Forall₂ (fun r p => r.kind = p.kind ∧ Finds r.match? p.words) Rule.all all := by
  have hblank (c : Char) : (c == ' ' || c == '\t') = true ↔ Blank c := by
    rw [Bool.or_eq_true, beq_iff_eq, beq_iff_eq]
    rfl
  simp only [Rule.all, all, List.forall₂_cons, List.forall₂_nil_right_iff, true_and, and_true, finds_exactly,
    finds_unterminated, finds_number, finds_identifier, finds_comment]
  exact ⟨finds_complete (by decide), finds_complete (by decide), finds_run hblank⟩

theorem complete_of_stringLiteral : ∀ p ∈ all, p.kind = .stringLiteral →
    p.words = complete '\x22' ∨ p.words = complete '\x27' := by
  simp [all]

end Pattern

end Transducer
