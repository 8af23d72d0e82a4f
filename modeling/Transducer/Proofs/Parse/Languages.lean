import Transducer.Parse.Goal
import Transducer.Proofs.Parse.Grammar

/-!
# Languages of goals

Every goal has a language, the words that it reads without a report, and an agenda has the product of the languages of
its goals. One token of lookahead is enough to read such a word, because behind an operand there is never a token that
could still belong to it. `Lawful` says this of an agenda.
-/

namespace Transducer.Parse

open Grammar Computability

/-! ### Languages of goals -/

namespace Strength

/-- What a binding of this strength reads. -/
def symbol : Strength → Symbol
  | .closure => .closure
  | .repetition => .repetition
  | .weight => .weight
  | .output => .output
  | .concat => .concat
  | .diff => .diff
  | .union => .union
  | .compose => .fst

/-- What its first operand is. -/
def operand : Strength → Symbol
  | .closure => .atom
  | .repetition => .closure
  | .weight => .repetition
  | .output => .weight
  | .concat => .output
  | .diff => .concat
  | .union => .diff
  | .compose => .union

/-- What may come behind the first operand. -/
def suffix : Strength → Ebnf
  | .closure => .opt (tok .star ||| tok .plus ||| tok .question)
  | .repetition =>
      .opt (tok .braceOpen ++ Ebnf.symbol .bound ++ Ebnf.opt (tok .comma ++ Ebnf.symbol .bound) ++ tok .braceClose)
  | .weight => .opt (tok .angleOpen ++ tok .number ++ tok .angleClose)
  | .output => .opt (tok .colon ++ Ebnf.symbol .weight)
  | .concat => .star (.symbol .output)
  | .diff => .star (tok .minus ++ Ebnf.symbol .concat)
  | .union => .star (tok .pipe ++ Ebnf.symbol .diff)
  | .compose => .star (tok .atSign ++ Ebnf.symbol .union)

/-- The kinds that the suffix starts with. -/
def openers : Strength → List Kind
  | .closure => [.star, .plus, .question]
  | .repetition => [.braceOpen]
  | .weight => [.angleOpen]
  | .output => [.colon]
  | .concat => exprKinds
  | .diff => [.minus]
  | .union => [.pipe]
  | .compose => [.atSign]

/-- Kinds that cannot come behind a binding of this strength: they would still belong to it, or a name in front of
them would be something else than a reference. -/
def reserved (strength : Strength) : List Kind :=
  [.bracketOpen, .equals, .unterminatedStr] ++ strength.upTo.flatMap openers

theorem lang_eq (strength : Strength) :
    lang (.symbol strength.symbol) = lang (.symbol strength.operand) * lang strength.suffix := by
  rw [lang_symbol, ← lang_append]
  cases strength <;> rfl

/-- A binding is an atom with suffixes. -/
theorem lang_eq_atom_mul (strength : Strength) :
    lang (.symbol strength.symbol) =
      lang (.symbol .atom) * (strength.upTo.map fun tighter => lang tighter.suffix).prod := by
  have hclosure := lang_eq .closure
  have hrepetition := lang_eq .repetition
  have hweight := lang_eq .weight
  have houtput := lang_eq .output
  have hconcat := lang_eq .concat
  have hdiff := lang_eq .diff
  have hunion := lang_eq .union
  have hcompose := lang_eq .compose
  simp only [symbol, operand] at hclosure hrepetition hweight houtput hconcat hdiff hunion hcompose
  cases strength <;> simp only [symbol, upTo, List.map_cons, List.map_nil, List.prod_cons, List.prod_nil, mul_one,
    hcompose, hunion, hdiff, hconcat, houtput, hweight, hrepetition, hclosure, mul_assoc]

theorem starts_symbol (strength : Strength) : Starts (lang (.symbol strength.symbol)) exprKinds := by
  rw [lang_eq_atom_mul]
  exact starts_atom.mul _

end Strength

/-- The words that a goal reads without a report. Skipping always goes with one. -/
def Goal.language : Goal → Language Token
  | .statements _ => (lang (.symbol .stmt))∗
  | .parameters => lang (tok .id) * (lang (tok .comma) * lang (tok .id))∗ *
      lang (tok .bracketClose)
  | .functionBody => lang (tok .braceOpen) * (lang (.symbol .stmt))∗ * lang (tok .braceClose)
  | .endBody => lang (tok .braceClose)
  | .skip | .endRecovery | .endSkipped => 0
  | .endStatement _ => lang (tok .semicolon)
  | .expression => lang (.symbol .fst)
  | .leaveExpression | .endOutput => 1
  | .suffixOf strength => lang strength.suffix
  | .arguments => (lang (tok .comma) * lang (.symbol .fst))∗ * lang (tok .bracketClose)
  | .endGroup => lang (tok .parenClose)

def agenda (goals : List Goal) : Language Token := (goals.map Goal.language).prod

@[simp]
theorem agenda_nil : agenda [] = 1 := rfl

@[simp]
theorem agenda_cons (g : Goal) (goals : List Goal) : agenda (g :: goals) = g.language * agenda goals := List.prod_cons

@[simp]
theorem agenda_append (gs hs : List Goal) : agenda (gs ++ hs) = agenda gs * agenda hs := by
  rw [agenda, List.map_append, List.prod_append]
  rfl

theorem agenda_suffixes (strengths : List Strength) :
    agenda (strengths.map .suffixOf) = (strengths.map fun strength => lang strength.suffix).prod := by
  rw [agenda, List.map_map]
  rfl

/-! ### What comes behind a goal -/

/-- The words behind the goal cannot be taken for a part of it. -/
def Goal.Before (P : Language Token) : Goal → Prop
  | .suffixOf strength => Avoids P strength.reserved
  | .expression => Avoids P Strength.compose.reserved
  | .statements true => Starts P [.braceClose]
  | .statements false => P = 1
  | .skip | .endRecovery | .endSkipped => False
  | _ => True

/-- Every goal stands before what comes behind it. -/
def Lawful (P : Language Token) : List Goal → Prop
  | [] => True
  | g :: goals => g.Before (agenda goals * P) ∧ Lawful P goals

theorem lawful_append {P : Language Token} {gs hs : List Goal} :
    Lawful P (gs ++ hs) ↔ Lawful (agenda hs * P) gs ∧ Lawful P hs := by
  induction gs with
  | nil => simp only [List.nil_append, Lawful, true_and]
  | cons g gs ih => rw [List.cons_append, Lawful, Lawful, ih, agenda_append, mul_assoc, and_assoc]

theorem starts_suffix (strength : Strength) :
    ∃ P, lang strength.suffix = 1 + P ∧ Starts P strength.openers := by
  cases strength with
  | closure =>
      refine ⟨_, lang_opt _, ?_⟩
      simp only [lang_or]
      exact ((starts_tok (by decide)).add (starts_tok (by decide))).add (starts_tok (by decide))
  | repetition =>
      refine ⟨_, lang_opt _, ?_⟩
      simp only [lang_append, mul_assoc]
      exact (starts_tok (by decide)).mul _
  | weight =>
      refine ⟨_, lang_opt _, ?_⟩
      simp only [lang_append, mul_assoc]
      exact (starts_tok (by decide)).mul _
  | output =>
      refine ⟨_, lang_opt _, ?_⟩
      simp only [lang_append]
      exact (starts_tok (by decide)).mul _
  | concat =>
      refine ⟨_, (lang_star _).trans (Language.one_add_self_mul_kstar_eq_kstar _).symm, ?_⟩
      exact (Strength.starts_symbol .output).mul _
  | diff =>
      refine ⟨_, (lang_star _).trans (Language.one_add_self_mul_kstar_eq_kstar _).symm, ?_⟩
      simp only [lang_append, mul_assoc]
      exact (starts_tok (by decide)).mul _
  | union =>
      refine ⟨_, (lang_star _).trans (Language.one_add_self_mul_kstar_eq_kstar _).symm, ?_⟩
      simp only [lang_append, mul_assoc]
      exact (starts_tok (by decide)).mul _
  | compose =>
      refine ⟨_, (lang_star _).trans (Language.one_add_self_mul_kstar_eq_kstar _).symm, ?_⟩
      simp only [lang_append, mul_assoc]
      exact (starts_tok (by decide)).mul _

theorem avoids_suffixes {P : Language Token} {ks : List Kind} (strengths : List Strength)
    (hdisjoint : ∀ strength ∈ strengths, ∀ k ∈ strength.openers, k ∉ ks) (hP : Avoids P ks) :
    Avoids (agenda (strengths.map .suffixOf) * P) ks := by
  induction strengths with
  | nil =>
      rw [List.map_nil, agenda_nil, one_mul]
      exact hP
  | cons strength strengths ih =>
      obtain ⟨hstrength, hdisjoint⟩ := List.forall_mem_cons.mp hdisjoint
      obtain ⟨Q, hQ, hstarts⟩ := starts_suffix strength
      rw [List.map_cons, agenda_cons, mul_assoc, Goal.language, hQ]
      exact Avoids.opt hstarts hstrength (ih hdisjoint)

/-- Suffixes of ascending strengths: a looser one never starts with what a tighter one could still take. -/
theorem lawful_suffixes {P : Language Token} {strengths : List Strength}
    (hsorted : strengths.Pairwise fun tighter looser => ∀ k ∈ looser.openers, k ∉ tighter.reserved)
    (hP : ∀ strength ∈ strengths, Avoids P strength.reserved) : Lawful P (strengths.map .suffixOf) := by
  induction strengths with
  | nil => trivial
  | cons strength strengths ih =>
      obtain ⟨hdisjoint, hsorted⟩ := List.pairwise_cons.mp hsorted
      obtain ⟨hstrength, hP⟩ := List.forall_mem_cons.mp hP
      exact ⟨avoids_suffixes strengths hdisjoint hstrength, ih hsorted hP⟩

theorem pairwise_upTo (strength : Strength) :
    strength.upTo.Pairwise fun tighter looser => ∀ k ∈ looser.openers, k ∉ tighter.reserved := by
  cases strength <;> decide

theorem openers_subset_reserved (strength : Strength) : strength.openers ⊆ strength.reserved := by
  cases strength <;> decide

theorem reserved_subset {strength tighter : Strength} (h : tighter ∈ strength.upTo) :
    tighter.reserved ⊆ strength.reserved := by
  revert h
  cases strength <;> cases tighter <;> decide

end Transducer.Parse
