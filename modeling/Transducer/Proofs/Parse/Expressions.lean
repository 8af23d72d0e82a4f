import Transducer.Proofs.Parse.Exact
import Transducer.Proofs.Parse.Languages

/-!
# Expressions are read exactly

A step that works on a goal is exact: the tokens ahead are a word of the agenda before the step precisely when they are
one of the agenda after it. This is shown here for all goals inside expressions. The two places where the parser looks
one token further are the bracket behind a name, which makes it a call, and the `=` behind a name, which makes it the
start of the next statement.
-/

namespace Transducer

namespace Parse

open Grammar State Computability

/-- The step is exact, and the goals it leaves over are lawful. -/
def ExactStep (P Q : Language Token) (s : State) (r : Step) : Prop :=
  Ensures r fun a => (s.Parses P ↔ a.2.Parses (agenda a.1 * Q)) ∧ (a.2.Clean → Lawful Q a.1)

section Rules

variable {s : State} {P Q R : Language Token} {r : Except Fault State}

theorem exactStep_done (h : Exact P Q s r) : ExactStep P Q s (done r) :=
  Ensures.map h fun _ ht => ⟨by rw [agenda_nil, one_mul]; exact ht, fun _ => trivial⟩

theorem exactStep_leaving {goals : List Goal} (h : Exact P (agenda goals * Q) s r) (hlawful : Lawful Q goals) :
    ExactStep P Q s (leaving goals r) :=
  Ensures.map h fun _ ht => ⟨ht, fun _ => hlawful⟩

theorem Spoils.exactStep {goals : List Goal} (hr : Spoils r) (h : ¬ s.Parses P) :
    ExactStep P Q s (leaving goals r) :=
  Ensures.map hr fun _ ht =>
    ⟨⟨fun hs => absurd hs h, fun hparses => absurd hparses.1 ht⟩, fun hclean => absurd hclean ht⟩

theorem exactStep_bind {f : State → Step} (hr : Exact P R s r) (hf : ∀ t, ExactStep R Q t (f t)) :
    ExactStep P Q s (r >>= f) :=
  Ensures.bind hr fun t ht => (hf t).mono fun _ hu => ⟨ht.trans hu.1, hu.2⟩

theorem ExactStep.congr {s' : State} {P' : Language Token} {r : Step} (hr : ExactStep P Q s r)
    (h : s'.Parses P' ↔ s.Parses P) : ExactStep P' Q s' r :=
  hr.mono fun _ ha => ⟨h.trans ha.1, ha.2⟩

end Rules

section Expressions

variable {s : State} {P Q : Language Token}

theorem looksAtAny_exprFirst_of_mem (h : s.current ∈ exprKinds) : s.looksAtAny .exprFirst = true := by
  have hall : ∀ k ∈ exprKinds, KindSet.exprFirst.contains k = true := by decide
  exact hall _ h

theorem not_parses_of_not_looksAtAny (hlooks : ¬ s.looksAtAny .exprFirst = true) (hP : Starts P exprKinds) :
    ¬ s.Parses P :=
  fun h => hlooks (looksAtAny_exprFirst_of_mem (h.current_mem hP))

/-! ### Strings -/

theorem exact_quoted {quote : Kind} (hk : s.current = quote) (hquote : quote ≠ .strVal) :
    Exact (lang (tok quote) * ((1 + lang (tok .strVal)) * (lang (tok quote) * P))) P s (string s) := by
  unfold string
  refine Exact.bind (exact_openNode_bump hk .str _) fun t => ?_
  refine Exact.bind (exact_skipOne ?_ (by decide)) fun u => ?_
  · refine ((starts_tok_self quote).mul P).avoids fun k hk' => ?_
    rw [List.mem_singleton.mp hk', List.mem_singleton]
    exact hquote
  · rw [hk]
    unfold State.requireCurrent
    split
    · rename_i hcurrent
      exact Exact.bind (exact_bump hcurrent) fun v => exact_closeNode v P
    · exact .error

theorem lang_string : lang (.symbol .string) =
    lang (tok .doubleQuote) * ((1 + lang (tok .strVal)) * lang (tok .doubleQuote)) +
      lang (tok .singleQuote) * ((1 + lang (tok .strVal)) * lang (tok .singleQuote)) := by
  rw [lang_symbol]
  simp only [Symbol.rule, lang_or, lang_append, lang_opt, mul_assoc]

theorem exact_string (hk : s.current = .doubleQuote ∨ s.current = .singleQuote) :
    Exact (lang (.symbol .string) * P) P s (string s) := by
  have hother {quote other : Kind} (hquote : s.current = quote) (hne : quote ≠ other) : s.current ∉ [other] := by
    rw [hquote, List.mem_singleton]
    exact hne
  simp only [lang_string, add_mul, mul_assoc]
  obtain hk | hk := hk
  · refine (exact_quoted hk (by decide)).congr ?_
    simp only [add_mul]
    exact parses_add_left ((starts_tok_self .singleQuote).mul _) (hother hk (by decide))
  · refine (exact_quoted hk (by decide)).congr ?_
    simp only [add_mul]
    exact parses_add_right ((starts_tok_self .doubleQuote).mul _) (hother hk (by decide))

/-! ### Atoms -/

theorem exactStep_nestedExpression (opener : String) (next : Goal) (hnext : next.Before Q)
    (havoids : Avoids (next.language * Q) Strength.compose.reserved) :
    ExactStep (lang (.symbol .fst) * (next.language * Q)) Q s (nestedExpression s opener next) := by
  unfold nestedExpression
  split
  · refine .ok ⟨?_, fun _ => ⟨?_, ?_, trivial⟩⟩
    · simp only [agenda_cons, agenda_nil, mul_one, mul_assoc, Goal.language]
    · rw [agenda_cons, agenda_nil, mul_one]
      exact havoids
    · rw [agenda_nil, one_mul]
      exact hnext
  · rename_i hlooks
    refine (spoils_report s _ _).exactStep (not_parses_of_not_looksAtAny hlooks ?_)
    exact (Strength.starts_symbol .compose).mul _

theorem exactStep_group :
    ExactStep (lang (tok .parenOpen) * (lang (.symbol .fst) * (lang (tok .parenClose) * Q))) Q s (group s) := by
  unfold group
  refine exactStep_bind ((exact_openDelimiter _ _ .parenOpen).congr (parses_openNode .nested).symm) fun t => ?_
  refine exactStep_nestedExpression "(" .endGroup trivial ?_
  exact ((starts_tok_self .parenClose).mul Q).avoids (by decide)

theorem exact_endArguments (hopen : s.delimiters ≠ []) :
    Exact (lang (tok .bracketClose) * Q) Q s (endArguments s) := by
  unfold endArguments
  refine Exact.bind (exact_closeDelimiter Q hopen .bracketClose _) fun t => ?_
  exact Exact.bind (exact_closeNode t Q) fun u => exact_closeNode u Q

/-- The arguments of a call behind the first one. -/
def moreArgumentsLang : Language Token := (lang (tok .comma) * lang (.symbol .fst))∗ * lang (tok .bracketClose)

theorem avoids_moreArguments (Q : Language Token) : Avoids (moreArgumentsLang * Q) Strength.compose.reserved := by
  rw [moreArgumentsLang, mul_assoc]
  refine Avoids.star ((starts_tok_self .comma).mul _) (by decide) ?_
  exact ((starts_tok_self .bracketClose).mul Q).avoids (by decide)

/-- A call behind its name and its bracket. -/
theorem exactStep_arguments (hopen : s.delimiters ≠ []) :
    ExactStep ((lang (tok .bracketClose) + lang (.symbol .fst) * moreArgumentsLang) * Q) Q s
      (if s.looksAt .bracketClose then done (endArguments s) else nestedExpression s "[" .arguments) := by
  rw [add_mul, mul_assoc]
  split
  · rename_i hlooks
    refine (exactStep_done (exact_endArguments hopen)).congr ?_
    refine parses_add_left ((Strength.starts_symbol .compose).mul _) ?_
    rw [looksAt_iff.mp hlooks]
    decide
  · rename_i hlooks
    refine (exactStep_nestedExpression "[" .arguments trivial (avoids_moreArguments Q)).congr ?_
    refine parses_add_right ((starts_tok_self .bracketClose).mul Q) fun hmem => ?_
    exact hlooks (looksAt_iff.mpr (List.mem_singleton.mp hmem))

theorem ensures_delimiters_openDelimiter (s : State) (k : Kind) :
    Ensures (s.openDelimiter k) fun t => t.delimiters ≠ [] := by
  unfold State.openDelimiter State.requireCurrent
  split
  · refine (ensures_bump_significant _).mono fun t ht => ?_
    obtain ⟨-, -, -, -, -, hdelimiters⟩ := ht
    rw [hdelimiters]
    exact List.cons_ne_nil _ _
  · exact .error

/-- A call behind its name. -/
def callLang : Language Token :=
  lang (tok .bracketOpen) * (lang (tok .bracketClose) + lang (.symbol .fst) * moreArgumentsLang)

theorem starts_callLang : Starts callLang [.bracketOpen] := (starts_tok_self .bracketOpen).mul _

theorem exactStep_call (hk : s.current = .id) (hnext : s.isFollowedBy .bracketOpen = true)
    (hQ : Avoids Q [.bracketOpen]) : ExactStep (lang (tok .id) * ((1 + callLang) * Q)) Q s (call s) := by
  unfold call
  have hbump := exact_openNode_bump hk .call ((1 + callLang) * Q)
  refine Ensures.bind (hbump.and (ensures_bump_significant _)) fun t ht => ?_
  obtain ⟨hparses, next, -, -, hsignificant, -⟩ := ht
  have hbracket : t.current = .bracketOpen := by
    rw [significant_openNode] at hsignificant
    exact (isFollowedBy_iff hsignificant (by decide)).mp hnext
  have hcall : t.Parses ((1 + callLang) * Q) ↔ t.Parses (callLang * Q) :=
    parses_opt_pos hbracket hQ List.mem_cons_self (by decide)
  have harguments := exact_openDelimiter (t.openTight (some .args))
    ((lang (tok .bracketClose) + lang (.symbol .fst) * moreArgumentsLang) * Q) .bracketOpen
  refine Ensures.bind (harguments.and (ensures_delimiters_openDelimiter _ _)) fun u hu => ?_
  refine (exactStep_arguments hu.2).congr ((hparses.trans hcall).trans ?_)
  rw [callLang, mul_assoc]
  exact hu.1

theorem exact_reference (hk : s.current = .id) (hnext : s.isFollowedBy .bracketOpen = false) :
    Exact (lang (tok .id) * ((1 + callLang) * Q)) Q s (reference s) := by
  unfold reference
  have hbump := exact_openNode_bump hk .ref ((1 + callLang) * Q)
  refine Ensures.bind (hbump.and (ensures_bump_significant _)) fun t ht => ?_
  obtain ⟨hparses, next, -, -, hsignificant, -⟩ := ht
  have hbracket : t.current ∉ [Kind.bracketOpen] := by
    rw [significant_openNode] at hsignificant
    rw [List.mem_singleton, ← isFollowedBy_iff hsignificant (by decide), hnext]
    exact Bool.false_ne_true
  exact (exact_closeNode t Q).congr (hparses.trans (parses_opt_neg starts_callLang hbracket))

theorem lang_atom : lang (.symbol .atom) =
    lang (tok .id) * (1 + callLang) + lang (.symbol .string) +
      lang (tok .parenOpen) * (lang (.symbol .fst) * lang (tok .parenClose)) := by
  rw [lang_symbol]
  simp only [Symbol.rule, lang_or, lang_append, lang_opt, lang_star, callLang, moreArgumentsLang, mul_add, add_mul,
    mul_one, mul_assoc]

theorem parses_atom_of_id (hk : s.current = .id) :
    s.Parses (lang (.symbol .atom) * Q) ↔ s.Parses (lang (tok .id) * ((1 + callLang) * Q)) := by
  rw [lang_atom, add_mul, add_mul, mul_assoc]
  refine (parses_add_left ((starts_tok_self .parenOpen).mul _ |>.mul Q) ?_).trans
    (parses_add_left (starts_string.mul Q) ?_)
  · rw [hk]
    decide
  · rw [hk]
    decide

theorem exactStep_atom (hQ : Avoids Q [.bracketOpen]) : ExactStep (lang (.symbol .atom) * Q) Q s (atom s) := by
  have hstring (hk : s.current = .doubleQuote ∨ s.current = .singleQuote) :
      s.Parses (lang (.symbol .atom) * Q) ↔ s.Parses (lang (.symbol .string) * Q) := by
    rw [lang_atom, add_mul, add_mul]
    refine (parses_add_left ((starts_tok_self .parenOpen).mul _ |>.mul Q) ?_).trans
      (parses_add_right ((starts_tok_self .id).mul _ |>.mul Q) ?_)
    · obtain hk | hk := hk <;> rw [hk] <;> decide
    · obtain hk | hk := hk <;> rw [hk] <;> decide
  have hnone (hk : s.current ∉ exprKinds) : ¬ s.Parses (lang (.symbol .atom) * Q) :=
    fun h => hk (h.current_mem (starts_atom.mul Q))
  unfold atom
  split
  · rename_i hk
    split
    · rename_i hnext
      exact (exactStep_call hk hnext hQ).congr (parses_atom_of_id hk)
    · rename_i hnext
      exact exactStep_done ((exact_reference hk (Bool.eq_false_iff.mpr hnext)).congr (parses_atom_of_id hk))
  · rename_i hk
    exact exactStep_done ((exact_string (.inl hk)).congr (hstring (.inl hk)))
  · rename_i hk
    exact exactStep_done ((exact_string (.inr hk)).congr (hstring (.inr hk)))
  · rename_i hk
    refine exactStep_done ((spoils_unterminatedString s).exact (hnone ?_))
    rw [hk]
    decide
  · rename_i hk
    refine exactStep_group.congr ?_
    rw [lang_atom, add_mul]
    have hothers : Starts ((lang (tok .id) * (1 + callLang) + lang (.symbol .string)) * Q)
        [.id, .doubleQuote, .singleQuote] :=
      (Starts.add ((starts_tok (by decide)).mul _) (starts_string.mono (by decide))).mul Q
    refine (parses_add_right hothers ?_).trans ?_
    · rw [hk]
      decide
    · simp only [mul_assoc]
  · rename_i hid' hdouble hsingle hunterminated hparen
    refine exactStep_done ((spoils_stray s).exact (hnone ?_))
    simp only [exprKinds, List.mem_cons, List.not_mem_nil, or_false, not_or]
    exact ⟨hid', hdouble, hsingle, hparen⟩

/-! ### Operands -/

theorem avoids_suffixes_upTo {R : Language Token} {strength : Strength} {ks : List Kind}
    (hks : ks ⊆ [.bracketOpen, .equals]) (hR : Avoids R ks) :
    Avoids (agenda (strength.upTo.map .suffixOf) * R) ks := by
  have hopeners : ∀ strength : Strength, ∀ k ∈ strength.openers, k ∉ [Kind.bracketOpen, .equals] := by
    intro strength
    cases strength <;> decide
  exact avoids_suffixes strength.upTo (fun tighter _ k hk hmem => hopeners tighter k hk (hks hmem)) hR

theorem exactStep_operand (strength : Strength) (following : List Goal)
    (havoids : Avoids (agenda following * Q) strength.reserved) (hlawful : Lawful Q following) :
    ExactStep (lang (.symbol strength.symbol) * (agenda following * Q)) Q s (operand strength following s) := by
  have hbracket : Avoids (agenda (strength.upTo.map .suffixOf) * (agenda following * Q)) [.bracketOpen] :=
    avoids_suffixes_upTo (by decide) (havoids.mono (by cases strength <;> decide))
  have hsuffixes : Lawful (agenda following * Q) (strength.upTo.map .suffixOf) :=
    lawful_suffixes (pairwise_upTo strength) fun tighter htighter => havoids.mono (reserved_subset htighter)
  unfold operand
  refine Ensures.bind (exactStep_atom hbracket) fun a ha => .ok ⟨?_, fun hclean => ?_⟩
  · rw [agenda_append, agenda_append, mul_assoc, mul_assoc, ← ha.1, parses_marks, Strength.lang_eq_atom_mul,
      ← agenda_suffixes, mul_assoc]
  · exact lawful_append.mpr ⟨lawful_append.mpr ⟨ha.2 hclean, hsuffixes⟩, hlawful⟩

theorem exactStep_operandAfter (operator : String) (strength : Strength) (following : List Goal)
    (havoids : Avoids (agenda following * Q) strength.reserved) (hlawful : Lawful Q following) :
    ExactStep (lang (.symbol strength.symbol) * (agenda following * Q)) Q s
      (operandAfter operator strength following s) := by
  unfold operandAfter
  split
  · exact exactStep_operand strength following havoids hlawful
  · rename_i hlooks
    refine (spoils_report s _ _).exactStep (not_parses_of_not_looksAtAny hlooks ?_)
    exact (Strength.starts_symbol strength).mul _

theorem exactStep_expression (hdepth : s.limits.allowsDepth s.depth = true)
    (hQ : Avoids Q Strength.compose.reserved) : ExactStep (lang (.symbol .fst) * Q) Q s (expression s) := by
  unfold expression
  rw [if_pos hdepth]
  have hfollowing : agenda [.leaveExpression] * Q = Q := by
    rw [agenda_cons, agenda_nil, Goal.language, one_mul, one_mul]
  have hoperand := exactStep_operand (s := s.descend) (Q := Q) .compose [.leaveExpression]
    (by rw [hfollowing]; exact hQ) ⟨trivial, trivial⟩
  rw [hfollowing] at hoperand
  exact hoperand.congr parses_descend.symm

/-! ### Suffixes -/

/-- A number is a bound if it can be read. -/
theorem parses_bound_iff (hk : s.current = .number) :
    s.Parses (lang (.symbol .bound) * Q) ↔
      (readNumeral? s.currentText).isSome = true ∧ s.Parses (lang (tok .number) * Q) := by
  obtain ⟨-, herror, -⟩ | ⟨next, rest, -, hsignificant, hkind, htext⟩ := s.significant_cases
  · rw [hk] at herror
    cases herror
  · rw [lang_symbol, Symbol.rule, Parses, Parses, hsignificant, htext, cons_mem_token_mul, cons_mem_tok_mul, ← hkind, hk]
    simp only [true_and]
    exact and_left_comm

theorem exact_checkBound (hk : s.current = .number) (Q : Language Token) :
    Ensures (checkBound s) fun t => (s.Parses (lang (.symbol .bound) * Q) ↔ t.Parses (lang (tok .number) * Q)) ∧
      t.current = .number ∧ t.delimiters = s.delimiters := by
  unfold checkBound
  split
  · rename_i hnone
    have hspoils : Exact (lang (.symbol .bound) * Q) (lang (tok .number) * Q) s
        (s.report .invalidRepetitionBound s!"`{s.currentText}`") := by
      refine (spoils_report s _ _).exact fun h => ?_
      have hread := ((parses_bound_iff hk).mp h).1
      rw [Option.isNone_iff_eq_none.mp hnone] at hread
      cases hread
    refine (hspoils.and (ensures_same_claim s _ _)).mono fun t ht => ⟨ht.1, ?_, ht.2.2⟩
    exact (current_of_rest ht.2.1).trans hk
  · rename_i hsome
    refine .ok ⟨(parses_bound_iff hk).trans ⟨fun h => h.2, fun h => ⟨?_, h⟩⟩, hk, rfl⟩
    exact Option.isSome_iff_ne_none.mpr fun hnone => hsome (Option.isNone_iff_eq_none.mpr hnone)

theorem exact_bound (s : State) (Q : Language Token) : Exact (lang (.symbol .bound) * Q) Q s (bound s) := by
  unfold bound
  split
  · rename_i hlooks
    refine Ensures.bind (exact_checkBound (looksAt_iff.mp hlooks) Q) fun t ht => ?_
    exact (exact_bump ht.2.1).congr ht.1
  · rename_i hlooks
    have hstarts : Starts (lang (.symbol .bound)) [.number] := by
      rw [lang_symbol]
      exact starts_token _ (by decide)
    refine (spoils_report s _ _).exact fun h => hlooks ?_
    exact looksAt_iff.mpr (List.mem_singleton.mp (h.current_mem (hstarts.mul Q)))

theorem ensures_delimiters_bump (s : State) : Ensures s.bump fun t => t.delimiters = s.delimiters :=
  (ensures_bump_significant s).mono fun _ ht => ht.choose_spec.2.2.2.2

theorem ensures_delimiters_bound (s : State) : Ensures (bound s) fun t => t.delimiters = s.delimiters := by
  unfold bound
  split
  · rename_i hlooks
    refine Ensures.bind (exact_checkBound (looksAt_iff.mp hlooks) 1) fun t ht => ?_
    exact (ensures_delimiters_bump t).mono fun _ hu => hu.trans ht.2.2
  · exact (ensures_same_claim s _ _).mono fun _ ht => ht.2

def upperBoundLang : Language Token := 1 + lang (tok .comma) * lang (.symbol .bound)

theorem exact_upperBound (hQ : Avoids Q [.comma]) : Exact (upperBoundLang * Q) Q s (upperBound s) := by
  unfold upperBound
  split
  · rename_i hlooks
    have hcomma := looksAt_iff.mp hlooks
    refine Exact.bind ((exact_bump hcomma).congr ?_) fun t => exact_bound t Q
    refine (parses_opt_pos hcomma hQ List.mem_cons_self (by decide)).trans ?_
    rw [mul_assoc]
  · rename_i hlooks
    refine .ok (parses_opt_neg ((starts_tok_self .comma).mul _) fun hmem => hlooks ?_)
    exact looksAt_iff.mpr (List.mem_singleton.mp hmem)

theorem ensures_delimiters_upperBound (s : State) : Ensures (upperBound s) fun t => t.delimiters = s.delimiters := by
  unfold upperBound
  split
  · refine Ensures.bind (ensures_delimiters_bump s) fun t ht => ?_
    exact (ensures_delimiters_bound t).mono fun _ hu => hu.trans ht
  · exact .ok rfl

theorem exact_bounds :
    Exact (lang (tok .braceOpen) * (lang (.symbol .bound) * (upperBoundLang * (lang (tok .braceClose) * Q)))) Q s
      (bounds s) := by
  unfold bounds
  have hopen := exact_openDelimiter (s.wrap .repetition)
    (lang (.symbol .bound) * (upperBoundLang * (lang (tok .braceClose) * Q))) .braceOpen
  have hcomma : Avoids (lang (tok .braceClose) * Q) [.comma] :=
    ((starts_tok_self .braceClose).mul Q).avoids (by decide)
  refine Ensures.bind ((hopen.congr (parses_wrap _).symm).and (ensures_delimiters_openDelimiter _ _)) fun t ht => ?_
  have hbound := (exact_bound t (upperBoundLang * (lang (tok .braceClose) * Q))).and (ensures_delimiters_bound t)
  refine Ensures.bind hbound fun u hu => ?_
  refine Ensures.bind ((exact_upperBound hcomma).and (ensures_delimiters_upperBound u)) fun v hv => ?_
  have hdelimiters : v.delimiters ≠ [] := by
    rw [hv.2, hu.2]
    exact ht.2
  exact (exact_closeDelimiter Q hdelimiters .braceClose _).congr ((ht.1.trans hu.1).trans hv.1)

theorem exact_weightValue (hk : s.current = .angleOpen) :
    Exact (lang (tok .angleOpen) * (lang (tok .number) * (lang (tok .angleClose) * Q))) Q s (weightValue s) := by
  unfold weightValue
  refine Exact.bind ((exact_bump (s := s.wrap .weight) hk).congr (parses_wrap _).symm) fun t => ?_
  exact Exact.bind (exact_expect t _ .number _ _) fun u => exact_expect u Q .angleClose _ _

theorem exact_thenClose {R : Language Token} {r : Except Fault State} (h : Exact R Q s r) :
    Exact R Q s (do (← r).closeNode) :=
  Exact.bind h fun t => exact_closeNode t Q

theorem exactStep_noSuffix {strength : Strength} (hk : s.current ∉ strength.openers) :
    ExactStep (lang strength.suffix * Q) Q s (done s.closeNode) := by
  obtain ⟨P, hP, hstarts⟩ := starts_suffix strength
  rw [hP]
  exact exactStep_done ((exact_closeNode s Q).congr (parses_opt_neg hstarts hk))

theorem not_mem_singleton_of_not_looksAt {k : Kind} (h : ¬ s.looksAt k = true) : s.current ∉ [k] :=
  fun hmem => h (looksAt_iff.mpr (List.mem_singleton.mp hmem))

theorem error_not_mem_reserved (strength : Strength) : .error ∉ strength.reserved := by
  cases strength <;> decide

theorem exactStep_closure (hQ : Avoids Q Strength.closure.reserved) :
    ExactStep (lang Strength.closure.suffix * Q) Q s (suffixStep .closure s) := by
  simp only [suffixStep]
  split
  · rename_i hlooks
    have hopener : s.current ∈ Strength.closure.openers := List.contains_iff_mem.mp hlooks
    refine exactStep_done (exact_thenClose ?_)
    refine (ensures_bump_significant (s.wrap .closure)).mono fun t ht => ?_
    obtain ⟨next, hkind, -, hsignificant, hclean, -⟩ := ht
    have hthere : s.Parses (lang Strength.closure.suffix * Q) ↔
        s.Parses (lang (tok .star ||| tok .plus ||| tok .question) * Q) := by
      rw [Strength.suffix, lang_opt]
      exact parses_opt_pos rfl hQ (openers_subset_reserved .closure hopener) (error_not_mem_reserved _)
    have hwrap : s.significant = next :: t.significant := hsignificant
    have hkind' : next.kind = .star ∨ next.kind = .plus ∨ next.kind = .question := by
      rw [show next.kind = s.current from hkind]
      simpa [Strength.openers] using hopener
    rw [hthere, Parses, Parses, hwrap, lang_or, lang_or, add_mul, add_mul, Language.mem_add, Language.mem_add,
      cons_mem_tok_mul, cons_mem_tok_mul, cons_mem_tok_mul, ← or_and_right, ← or_and_right, or_assoc, hclean]
    exact ⟨fun h => ⟨h.1, h.2.2⟩, fun h => ⟨h.1, hkind', h.2⟩⟩
  · rename_i hlooks
    exact exactStep_noSuffix fun hmem => hlooks (List.contains_iff_mem.mpr hmem)

theorem exactStep_repetition (hQ : Avoids Q Strength.repetition.reserved) :
    ExactStep (lang Strength.repetition.suffix * Q) Q s (suffixStep .repetition s) := by
  simp only [suffixStep]
  split
  · rename_i hlooks
    refine exactStep_done (exact_thenClose (exact_bounds.congr ?_))
    rw [Strength.suffix, lang_opt]
    refine (parses_opt_pos (looksAt_iff.mp hlooks) hQ (by decide) (by decide)).trans ?_
    simp only [lang_append, lang_opt, upperBoundLang, mul_assoc]
  · rename_i hlooks
    exact exactStep_noSuffix (not_mem_singleton_of_not_looksAt hlooks)

theorem exactStep_weight (hQ : Avoids Q Strength.weight.reserved) :
    ExactStep (lang Strength.weight.suffix * Q) Q s (suffixStep .weight s) := by
  simp only [suffixStep]
  split
  · rename_i hlooks
    have hangle := looksAt_iff.mp hlooks
    refine exactStep_done (exact_thenClose ((exact_weightValue hangle).congr ?_))
    rw [Strength.suffix, lang_opt]
    refine (parses_opt_pos hangle hQ (by decide) (by decide)).trans ?_
    simp only [lang_append, mul_assoc]
  · rename_i hlooks
    exact exactStep_noSuffix (not_mem_singleton_of_not_looksAt hlooks)

theorem exactStep_output (hQ : Avoids Q Strength.output.reserved) :
    ExactStep (lang Strength.output.suffix * Q) Q s (suffixStep .output s) := by
  simp only [suffixStep]
  split
  · rename_i hlooks
    have hcolon := looksAt_iff.mp hlooks
    have hfollowing : agenda [.endOutput] * Q = Q := by
      rw [agenda_cons, agenda_nil, Goal.language, one_mul, one_mul]
    refine exactStep_bind (R := lang (.symbol .weight) * (agenda [.endOutput] * Q))
      ((exact_bump (s := s.wrap .output) hcolon).congr ?_) fun t => ?_
    · rw [Strength.suffix, lang_opt, hfollowing]
      refine (parses_opt_pos hcolon hQ (by decide) (by decide)).trans ?_
      rw [lang_append, mul_assoc]
      rfl
    · refine exactStep_operandAfter ":" .weight [.endOutput] ?_ ⟨trivial, trivial⟩
      rw [hfollowing]
      exact hQ.mono (reserved_subset (by decide))
  · rename_i hlooks
    exact exactStep_noSuffix (not_mem_singleton_of_not_looksAt hlooks)

/-- One more operator of a chain, whose suffix repeats the operator and a tighter operand. -/
theorem exactStep_chainLink (node : Kind) (operator : String) {strength tighter : Strength} {k : Kind}
    (hsuffix : strength.suffix = .star (tok k ++ Ebnf.symbol tighter.symbol)) (hk : s.current = k)
    (hopeners : strength.openers = [k]) (htighter : tighter ∈ strength.upTo)
    (hdisjoint : k ∉ tighter.reserved) (hQ : Avoids Q strength.reserved) :
    ExactStep (lang strength.suffix * Q) Q s (chainLink node operator strength tighter s) := by
  have hmem : k ∈ strength.reserved := openers_subset_reserved strength (hopeners ▸ List.mem_cons_self)
  have hfollowing : agenda [.suffixOf strength] * Q = lang strength.suffix * Q := by
    rw [agenda_cons, agenda_nil, Goal.language, mul_one]
  unfold chainLink
  refine exactStep_bind (R := lang (.symbol tighter.symbol) * (agenda [.suffixOf strength] * Q))
    ((exact_bump (s := s.wrap node) hk).congr ?_) fun t => ?_
  · rw [parses_wrap, hfollowing, hsuffix, lang_star]
    nth_rewrite 1 [← Language.one_add_self_mul_kstar_eq_kstar]
    refine (parses_opt_pos hk hQ hmem (error_not_mem_reserved _)).trans ?_
    simp only [lang_append, mul_assoc]
  · refine exactStep_operandAfter operator tighter [.suffixOf strength] ?_ ⟨?_, trivial⟩
    · refine avoids_suffixes [strength] ?_ (hQ.mono (reserved_subset htighter))
      rw [List.forall_mem_singleton, hopeners, List.forall_mem_singleton]
      exact hdisjoint
    · rw [agenda_nil, one_mul]
      exact hQ

/-- A name in front of `=` is no operand: nothing that an operand can be followed by starts with `=`. -/
theorem not_parses_operand_of_equals (strength : Strength) (hk : s.current = .id)
    (hnext : s.isFollowedBy .equals = true) (hQ : Avoids Q [.equals]) :
    ¬ s.Parses (lang (.symbol strength.symbol) * Q) := by
  intro h
  have havoids : Avoids ((1 + callLang) * (agenda (strength.upTo.map .suffixOf) * Q)) [.equals] :=
    Avoids.opt starts_callLang (by decide) (avoids_suffixes_upTo (by decide) hQ)
  have hword : s.Parses (lang (tok .id) * ((1 + callLang) * (agenda (strength.upTo.map .suffixOf) * Q))) := by
    rw [Strength.lang_eq_atom_mul, ← agenda_suffixes, mul_assoc] at h
    exact (parses_atom_of_id hk).mp h
  obtain ⟨-, herror, -⟩ | ⟨next, rest, -, hsignificant, -, -⟩ := s.significant_cases
  · rw [hk] at herror
    cases herror
  · rw [isFollowedBy_eq, hsignificant] at hnext
    rw [Parses, hsignificant, cons_mem_tok_mul] at hword
    cases hrest : rest.filter fun t => !t.isTrivia with
    | nil =>
        rw [hrest] at hnext
        cases hnext
    | cons second after =>
        rw [hrest] at hnext hword
        exact havoids second after hword.2.2 (List.mem_singleton.mpr (beq_iff_eq.mp hnext))

theorem exactStep_concat (hQ : Avoids Q Strength.concat.reserved) :
    ExactStep (lang Strength.concat.suffix * Q) Q s (suffixStep .concat s) := by
  have hfollowing : agenda [.suffixOf .concat] * Q = lang Strength.concat.suffix * Q := by
    rw [agenda_cons, agenda_nil, Goal.language, mul_one]
  have hunfold : lang Strength.concat.suffix = 1 + lang (.symbol .output) * lang Strength.concat.suffix := by
    rw [Strength.suffix, lang_star]
    exact (Language.one_add_self_mul_kstar_eq_kstar _).symm
  have havoids : Avoids (lang Strength.concat.suffix * Q) Strength.output.reserved := by
    rw [← hfollowing]
    exact avoids_suffixes [.concat] (by decide) (hQ.mono (reserved_subset (by decide)))
  simp only [suffixStep]
  split
  · rename_i hoperand
    have hfirst : s.current ∈ Strength.concat.reserved := by
      have hlooks : s.looksAtAny .exprFirst = true := (Bool.and_eq_true _ _ ▸ hoperand).1
      have hsubset : KindSet.exprFirst.kinds ⊆ Strength.concat.reserved := by decide
      exact hsubset (List.contains_iff_mem.mp hlooks)
    refine (exactStep_operand .output [.suffixOf .concat] ?_ ⟨?_, trivial⟩).congr (s := s.wrap .concat) ?_
    · rw [hfollowing]
      exact havoids
    · rw [agenda_nil, one_mul]
      exact hQ
    · rw [hfollowing, parses_wrap]
      nth_rewrite 1 [hunfold]
      refine (parses_opt_pos rfl hQ hfirst (error_not_mem_reserved _)).trans ?_
      rw [mul_assoc]
      rfl
  · rename_i hoperand
    by_cases hlooks : s.looksAtAny .exprFirst = true
    · -- The next token is a name that starts another statement.
      rw [atOperand, hlooks, Bool.true_and, Bool.not_eq_true', Bool.not_eq_false] at hoperand
      rw [Bool.and_eq_true, beq_iff_eq] at hoperand
      refine exactStep_done ((exact_closeNode s Q).congr ?_)
      rw [hunfold, add_mul, one_mul, mul_assoc]
      refine parses_add_of_not ?_
      exact not_parses_operand_of_equals .output hoperand.1 hoperand.2 (havoids.mono (by decide))
    · exact exactStep_noSuffix fun hmem => hlooks (looksAtAny_exprFirst_of_mem hmem)

theorem exactStep_suffix (strength : Strength) (hQ : Avoids Q strength.reserved) :
    ExactStep (lang strength.suffix * Q) Q s (suffixStep strength s) := by
  cases strength with
  | closure => exact exactStep_closure hQ
  | repetition => exact exactStep_repetition hQ
  | weight => exact exactStep_weight hQ
  | output => exact exactStep_output hQ
  | concat => exact exactStep_concat hQ
  | diff =>
      simp only [suffixStep]
      split
      · rename_i hlooks
        exact exactStep_chainLink .diff "-" rfl (looksAt_iff.mp hlooks) rfl (by decide) (by decide) hQ
      · rename_i hlooks
        exact exactStep_noSuffix (not_mem_singleton_of_not_looksAt hlooks)
  | union =>
      simp only [suffixStep]
      split
      · rename_i hlooks
        exact exactStep_chainLink .union "|" rfl (looksAt_iff.mp hlooks) rfl (by decide) (by decide) hQ
      · rename_i hlooks
        exact exactStep_noSuffix (not_mem_singleton_of_not_looksAt hlooks)
  | compose =>
      simp only [suffixStep]
      split
      · rename_i hlooks
        exact exactStep_chainLink .compose "@" rfl (looksAt_iff.mp hlooks) rfl (by decide) (by decide) hQ
      · rename_i hlooks
        exact exactStep_noSuffix (not_mem_singleton_of_not_looksAt hlooks)

theorem exactStep_moreArguments (hopen : s.delimiters ≠ []) :
    ExactStep (Goal.arguments.language * Q) Q s (moreArguments s) := by
  have hunfold : Goal.arguments.language * Q =
      lang (tok .bracketClose) * Q + lang (tok .comma) * (lang (.symbol .fst) * (Goal.arguments.language * Q)) := by
    simp only [Goal.language]
    nth_rewrite 1 [← Language.one_add_self_mul_kstar_eq_kstar]
    simp only [add_mul, one_mul, mul_assoc]
  rw [hunfold]
  unfold moreArguments
  split
  · rename_i hlooks
    have hcomma := looksAt_iff.mp hlooks
    refine exactStep_bind (R := lang (.symbol .fst) * (Goal.arguments.language * Q))
      ((exact_bump hcomma).congr ?_) fun t => ?_
    · refine parses_add_right ((starts_tok_self .bracketClose).mul Q) ?_
      rw [hcomma]
      decide
    · exact exactStep_nestedExpression "," .arguments trivial (avoids_moreArguments Q)
  · rename_i hlooks
    refine (exactStep_done (exact_endArguments hopen)).congr ?_
    exact parses_add_left ((starts_tok_self .comma).mul _) (not_mem_singleton_of_not_looksAt hlooks)

theorem exact_endGroup (hopen : s.delimiters ≠ []) : Exact (lang (tok .parenClose) * Q) Q s (endGroup s) := by
  unfold endGroup
  exact exact_thenClose (exact_closeDelimiter Q hopen .parenClose _)

end Expressions

end Parse

end Transducer
