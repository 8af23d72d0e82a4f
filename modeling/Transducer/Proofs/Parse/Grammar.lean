import Mathlib.Computability.Language
import Transducer.CodePoint
import Transducer.Token.Basic

/-!
# The grammar

The rules of the language as data, and the token lists that they derive. Trivia plays no part: the grammar is about
significant tokens only. For proofs every rule is read as an equation between languages.
-/

namespace Transducer.Grammar

open Computability

inductive Symbol where
  | root | stmt | fst | union | diff | concat | output | weight | repetition | closure | atom | string | bound
  deriving DecidableEq, Repr

/-- Right-hand sides of rules. A token is given by its kind and by a condition on its text. -/
inductive Ebnf where
  | token (kind : Kind) (accepts : String → Bool)
  | symbol (s : Symbol)
  | seq (a b : Ebnf)
  | alt (a b : Ebnf)
  | star (a : Ebnf)
  | opt (a : Ebnf)

instance : Append Ebnf := ⟨.seq⟩

instance : OrOp Ebnf := ⟨.alt⟩

def tok (kind : Kind) : Ebnf := .token kind fun _ => true

open Ebnf in
def Symbol.rule : Symbol → Ebnf
  | .root => star (symbol .stmt)
  | .stmt =>
      (opt (tok .kwExport) ++ tok .id ++ tok .equals ++ symbol .fst ++ tok .semicolon) |||
      (tok .kwImport ++ symbol .string ++ tok .kwAs ++ tok .id ++ tok .semicolon) |||
      (tok .kwFunc ++ tok .id ++
        tok .bracketOpen ++ opt (tok .id ++ star (tok .comma ++ tok .id)) ++ tok .bracketClose ++
        tok .braceOpen ++ star (symbol .stmt) ++ tok .braceClose) |||
      (tok .kwReturn ++ symbol .fst ++ tok .semicolon)
  | .fst => symbol .union ++ star (tok .atSign ++ symbol .union)
  | .union => symbol .diff ++ star (tok .pipe ++ symbol .diff)
  | .diff => symbol .concat ++ star (tok .minus ++ symbol .concat)
  | .concat => symbol .output ++ star (symbol .output)
  | .output => symbol .weight ++ opt (tok .colon ++ symbol .weight)
  | .weight => symbol .repetition ++ opt (tok .angleOpen ++ tok .number ++ tok .angleClose)
  | .repetition =>
      symbol .closure ++
        opt (tok .braceOpen ++ symbol .bound ++ opt (tok .comma ++ symbol .bound) ++ tok .braceClose)
  | .closure => symbol .atom ++ opt (tok .star ||| tok .plus ||| tok .question)
  | .atom =>
      tok .id |||
      (tok .id ++ tok .bracketOpen ++ opt (symbol .fst ++ star (tok .comma ++ symbol .fst)) ++ tok .bracketClose) |||
      symbol .string |||
      (tok .parenOpen ++ symbol .fst ++ tok .parenClose)
  | .string =>
      (tok .doubleQuote ++ opt (tok .strVal) ++ tok .doubleQuote) |||
      (tok .singleQuote ++ opt (tok .strVal) ++ tok .singleQuote)
  | .bound => .token .number fun text => (readNumeral? text).isSome

/-- The token lists that a right-hand side derives. -/
inductive Derives : Ebnf → List Token → Prop where
  | token {kind : Kind} {accepts : String → Bool} {t : Token} (hkind : t.kind = kind)
      (haccepts : accepts t.text = true) : Derives (.token kind accepts) [t]
  | symbol {s : Symbol} {ts : List Token} (h : Derives s.rule ts) : Derives (.symbol s) ts
  | seq {a b : Ebnf} {ts us : List Token} (ha : Derives a ts) (hb : Derives b us) : Derives (.seq a b) (ts ++ us)
  | altLeft {a b : Ebnf} {ts : List Token} (h : Derives a ts) : Derives (.alt a b) ts
  | altRight {a b : Ebnf} {ts : List Token} (h : Derives b ts) : Derives (.alt a b) ts
  | starNil {a : Ebnf} : Derives (.star a) []
  | starCons {a : Ebnf} {ts us : List Token} (h : Derives a ts) (hs : Derives (.star a) us) :
      Derives (.star a) (ts ++ us)
  | optNone {a : Ebnf} : Derives (.opt a) []
  | optSome {a : Ebnf} {ts : List Token} (h : Derives a ts) : Derives (.opt a) ts

/-! ### Rules as equations -/

def lang (a : Ebnf) : Language Token := {ts : List Token | Derives a ts}

theorem mem_lang {a : Ebnf} {ts : List Token} : ts ∈ lang a ↔ Derives a ts := Iff.rfl

variable (a b : Ebnf)

@[simp]
theorem lang_append : lang (a ++ b) = lang a * lang b := by
  ext w
  rw [Language.mem_mul]
  constructor
  · intro h
    cases h with
    | seq ha hb => exact ⟨_, ha, _, hb, rfl⟩
  · rintro ⟨ts, hts, us, hus, rfl⟩
    exact .seq hts hus

@[simp]
theorem lang_or : lang (a ||| b) = lang a + lang b := by
  ext w
  rw [Language.mem_add]
  constructor
  · intro h
    cases h with
    | altLeft h => exact .inl h
    | altRight h => exact .inr h
  · rintro (h | h)
    · exact .altLeft h
    · exact .altRight h

@[simp]
theorem lang_opt : lang (.opt a) = 1 + lang a := by
  ext w
  rw [Language.mem_add, Language.mem_one]
  constructor
  · intro h
    cases h with
    | optNone => exact .inl rfl
    | optSome h => exact .inr h
  · rintro (rfl | h)
    · exact .optNone
    · exact .optSome h

theorem derives_star_iff (w : List Token) :
    Derives (.star a) w ↔ ∃ parts : List (List Token), w = parts.flatten ∧ ∀ part ∈ parts, Derives a part := by
  constructor
  · intro h
    generalize he : Ebnf.star a = e at h
    induction h with
    | starNil => exact ⟨[], rfl, fun _ h => nomatch h⟩
    | @starCons a' ts us h _ _ ih =>
        cases he
        obtain ⟨parts, rfl, hparts⟩ := ih rfl
        exact ⟨ts :: parts, rfl, List.forall_mem_cons.mpr ⟨h, hparts⟩⟩
    | _ => cases he
  · rintro ⟨parts, rfl, hparts⟩
    induction parts with
    | nil => exact .starNil
    | cons part parts ih =>
        obtain ⟨hpart, hparts⟩ := List.forall_mem_cons.mp hparts
        exact .starCons hpart (ih hparts)

@[simp]
theorem lang_star : lang (.star a) = (lang a)∗ := by
  ext w
  rw [Language.mem_kstar]
  exact derives_star_iff a w

theorem lang_symbol (s : Symbol) : lang (.symbol s) = lang s.rule := by
  ext w
  constructor
  · intro h
    cases h with
    | symbol h => exact h
  · exact .symbol

/-! ### First tokens -/

/-- No word is empty, and all start with a token of one of the kinds. -/
def Starts (P : Language Token) (ks : List Kind) : Prop := ∀ w ∈ P, ∃ t ts, w = t :: ts ∧ t.kind ∈ ks

/-- No word starts with a token of one of the kinds. -/
def Avoids (P : Language Token) (ks : List Kind) : Prop := ∀ t ts, t :: ts ∈ P → t.kind ∉ ks

section First

variable {P Q : Language Token} {ks ls : List Kind}

theorem cons_mem_token_mul {kind : Kind} {accepts : String → Bool} {t : Token} {ts : List Token} :
    t :: ts ∈ lang (.token kind accepts) * P ↔ (t.kind = kind ∧ accepts t.text = true) ∧ ts ∈ P := by
  rw [Language.mem_mul]
  constructor
  · rintro ⟨_, ⟨hkind, haccepts⟩, us, hus, h⟩
    cases h
    exact ⟨⟨hkind, haccepts⟩, hus⟩
  · rintro ⟨⟨hkind, haccepts⟩, hts⟩
    exact ⟨[t], .token hkind haccepts, ts, hts, rfl⟩

theorem cons_mem_tok_mul {kind : Kind} {t : Token} {ts : List Token} :
    t :: ts ∈ lang (tok kind) * P ↔ t.kind = kind ∧ ts ∈ P := by
  rw [tok, cons_mem_token_mul]
  simp only [and_true]

theorem starts_token {kind : Kind} (accepts : String → Bool) (h : kind ∈ ks) :
    Starts (lang (.token kind accepts)) ks := by
  rintro w ⟨rfl, -⟩
  exact ⟨_, [], rfl, h⟩

theorem starts_tok {kind : Kind} (h : kind ∈ ks) : Starts (lang (tok kind)) ks := starts_token _ h

theorem starts_tok_self (kind : Kind) : Starts (lang (tok kind)) [kind] := starts_tok List.mem_cons_self

theorem Starts.mul (h : Starts P ks) (Q : Language Token) : Starts (P * Q) ks := by
  intro w hw
  obtain ⟨u, hu, v, -, rfl⟩ := Language.mem_mul.mp hw
  obtain ⟨t, ts, rfl, ht⟩ := h u hu
  exact ⟨t, ts ++ v, rfl, ht⟩

theorem Starts.add (hP : Starts P ks) (hQ : Starts Q ks) : Starts (P + Q) ks := by
  intro w hw
  obtain hw | hw := (Language.mem_add _ _ _).mp hw
  · exact hP w hw
  · exact hQ w hw

theorem Starts.mono (h : Starts P ks) (hsubset : ks ⊆ ls) : Starts P ls := by
  intro w hw
  obtain ⟨t, ts, rfl, ht⟩ := h w hw
  exact ⟨t, ts, rfl, hsubset ht⟩

theorem Starts.avoids (h : Starts P ks) (hdisjoint : ∀ k ∈ ks, k ∉ ls) : Avoids P ls := by
  intro t ts hw
  obtain ⟨t', ts', heq, ht⟩ := h _ hw
  cases heq
  exact hdisjoint _ ht

theorem Avoids.add (hP : Avoids P ks) (hQ : Avoids Q ks) : Avoids (P + Q) ks := by
  intro t ts hw
  obtain hw | hw := (Language.mem_add _ _ _).mp hw
  · exact hP t ts hw
  · exact hQ t ts hw

theorem Avoids.mono (h : Avoids P ls) (hsubset : ks ⊆ ls) : Avoids P ks :=
  fun t ts hw ht => h t ts hw (hsubset ht)

theorem Avoids.opt (hP : Starts P ls) (hdisjoint : ∀ k ∈ ls, k ∉ ks) (hQ : Avoids Q ks) : Avoids ((1 + P) * Q) ks := by
  rw [add_mul, one_mul]
  exact hQ.add ((hP.mul Q).avoids hdisjoint)

theorem Avoids.star (hP : Starts P ls) (hdisjoint : ∀ k ∈ ls, k ∉ ks) (hQ : Avoids Q ks) : Avoids (P∗ * Q) ks := by
  rw [← Language.one_add_self_mul_kstar_eq_kstar, add_mul, one_mul, mul_assoc]
  exact hQ.add ((hP.mul _).avoids hdisjoint)

end First

/-- Kinds that an expression can start with. -/
def exprKinds : List Kind := [.id, .doubleQuote, .singleQuote, .parenOpen]

theorem starts_string : Starts (lang (.symbol .string)) [.doubleQuote, .singleQuote] := by
  rw [lang_symbol]
  simp only [Symbol.rule, lang_or, lang_append, mul_assoc]
  refine .add ?_ ?_
  · exact (starts_tok (by decide)).mul _
  · exact (starts_tok (by decide)).mul _

theorem starts_atom : Starts (lang (.symbol .atom)) exprKinds := by
  rw [lang_symbol]
  simp only [Symbol.rule, lang_or, lang_append, mul_assoc]
  refine .add (.add (.add ?_ ?_) ?_) ?_
  · exact starts_tok (by decide)
  · exact (starts_tok (by decide)).mul _
  · exact starts_string.mono (by decide)
  · exact (starts_tok (by decide)).mul _

theorem starts_stmt : Starts (lang (.symbol .stmt)) [.kwExport, .id, .kwImport, .kwFunc, .kwReturn] := by
  rw [lang_symbol]
  simp only [Symbol.rule, lang_or, lang_append, lang_opt, mul_assoc, add_mul, one_mul]
  refine .add (.add (.add (.add ?_ ?_) ?_) ?_) ?_
  all_goals exact (starts_tok (by decide)).mul _

end Transducer.Grammar
