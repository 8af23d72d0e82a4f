import Transducer.Proofs.Parse.Expressions
import Transducer.Proofs.Parse.Totality

/-!
# The parser accepts its grammar

Statements are read exactly, too, so that every step on a lawful agenda is exact. A parse without limits therefore ends
clean precisely when the significant tokens of the source are derivable.
-/

namespace Transducer

namespace Parse

open Grammar State Computability

/-! ### Statements -/

section Statements

variable {s : State} {Q : Language Token}

theorem exactStep_statementBody (form : Form) :
    ExactStep (lang (.symbol .fst) * (lang (tok .semicolon) * Q)) Q s (statementBody form s) := by
  unfold statementBody
  split
  · refine .ok ⟨?_, fun _ => ⟨?_, trivial, trivial⟩⟩
    · simp only [agenda_cons, agenda_nil, Goal.language, mul_one, mul_assoc]
    · rw [agenda_cons, agenda_nil, mul_one]
      exact ((starts_tok_self .semicolon).mul Q).avoids (by decide)
  · rename_i hlooks
    have hnot : ¬ s.Parses (lang (.symbol .fst) * (lang (tok .semicolon) * Q)) :=
      not_parses_of_not_looksAtAny hlooks ((Strength.starts_symbol .compose).mul _)
    split
    · exact (spoils_report s _ _).exactStep hnot
    · exact (spoils_report _ _ _).exactStep hnot

theorem exactStep_endStatement (form : Form) :
    ExactStep (lang (tok .semicolon) * Q) Q s (endStatement form s) := by
  unfold endStatement
  split
  · exact exactStep_done (exact_thenClose (exact_expectSemicolon s Q _))
  · rename_i hboundary
    refine (spoils_report _ _ _).exactStep (not_parses_tok_mul fun hk => hboundary ?_)
    rw [atBoundary, hk, Bool.or_eq_true]
    exact .inr rfl

/-- A definition and what comes behind it. -/
def definitionThen (Q : Language Token) : Language Token :=
  (1 + lang (tok .kwExport)) *
    (lang (tok .id) * (lang (tok .equals) * (lang (.symbol .fst) * (lang (tok .semicolon) * Q))))

theorem starts_definitionThen (Q : Language Token) : Starts (definitionThen Q) [.kwExport, .id] := by
  rw [definitionThen, add_mul, one_mul]
  exact ((starts_tok (by decide)).mul _).add ((starts_tok (by decide)).mul _)

theorem exactStep_definition : ExactStep (definitionThen Q) Q s (definition s) := by
  unfold definition
  have hexport := exact_skipOne (s := s.openNode .varDef) (k := .kwExport) (P := lang (tok .id) *
    (lang (tok .equals) * (lang (.symbol .fst) * (lang (tok .semicolon) * Q))))
    (((starts_tok_self .id).mul _).avoids (by decide)) (by decide)
  refine exactStep_bind (hexport.congr (parses_openNode .varDef).symm) fun t => ?_
  refine exactStep_bind (exact_expect t _ .id _ _) fun u => ?_
  exact exactStep_bind (exact_expect u _ .equals _ _) fun v => exactStep_statementBody .definition

theorem exactStep_returnStatement (hk : s.current = .kwReturn) :
    ExactStep (lang (tok .kwReturn) * (lang (.symbol .fst) * (lang (tok .semicolon) * Q))) Q s (returnStatement s) := by
  unfold returnStatement
  refine Ensures.check ?_
  exact exactStep_bind (exact_openNode_bump hk .returnStmt _) fun t => exactStep_statementBody .returned

theorem exact_importPath : Exact (lang (.symbol .string) * Q) Q s (importPath s) := by
  have hnot (h : s.current ∉ [Kind.doubleQuote, .singleQuote]) : ¬ s.Parses (lang (.symbol .string) * Q) :=
    fun hparses => h (hparses.current_mem (starts_string.mul Q))
  unfold importPath
  split
  · rename_i hk
    exact exact_string (.inl hk)
  · rename_i hk
    exact exact_string (.inr hk)
  · rename_i hk
    refine (spoils_unterminatedString s).exact (hnot ?_)
    rw [hk]
    decide
  · rename_i hdouble hsingle _
    refine (spoils_report s _ _).exact (hnot ?_)
    simp only [List.mem_cons, List.not_mem_nil, or_false, not_or]
    exact ⟨hdouble, hsingle⟩

theorem exact_importStatement (hk : s.current = .kwImport) :
    Exact (lang (tok .kwImport) * (lang (.symbol .string) * (lang (tok .kwAs) * (lang (tok .id) *
      (lang (tok .semicolon) * Q))))) Q s (importStatement s) := by
  unfold importStatement
  refine Ensures.check ?_
  refine Exact.bind (exact_openNode_bump hk .importStmt _) fun t => ?_
  refine Exact.bind exact_importPath fun u => ?_
  refine Exact.bind (exact_expect u _ .kwAs _ _) fun v => ?_
  refine Exact.bind (exact_expect v _ .id _ _) fun w => ?_
  exact exact_thenClose (exact_expectSemicolon w Q _)

theorem exact_endParameters (hopen : s.delimiters ≠ []) :
    Exact (lang (tok .bracketClose) * Q) Q s (endParameters s) := by
  unfold endParameters
  exact exact_thenClose (exact_closeDelimiter Q hopen .bracketClose _)

theorem exact_openParameters : Exact (lang (tok .id) * Q) Q s (openParameters s) := by
  unfold openParameters
  split
  · rename_i hlooks
    exact Ensures.map (exact_bump (looksAt_iff.mp hlooks)) fun t ht => ht
  · rename_i hlooks
    have hspoils := (spoils_report s .expectedName "for function").exact (Q := Q)
      (not_parses_tok_mul (P := Q) fun hk => hlooks (looksAt_iff.mpr hk))
    exact Ensures.map hspoils fun t ht => ht.trans (parses_openNode .params).symm

theorem agenda_singleton (g : Goal) : agenda [g] = g.language := by
  rw [agenda_cons, agenda_nil, mul_one]

/-- A parameter list behind its bracket. -/
theorem exactStep_parameterList (hopen : s.delimiters ≠ []) :
    ExactStep ((lang (tok .bracketClose) + Goal.parameters.language) * (Goal.functionBody.language * Q)) Q s
      (if s.looksAt .bracketClose then leaving [.functionBody] (endParameters s)
        else return ([.parameters, .functionBody], s)) := by
  have hstarts : Starts (Goal.parameters.language * (Goal.functionBody.language * Q)) [.id] := by
    simp only [Goal.language, mul_assoc]
    exact (starts_tok_self .id).mul _
  rw [add_mul]
  split
  · rename_i hlooks
    refine exactStep_leaving ?_ ⟨trivial, trivial⟩
    rw [agenda_singleton]
    refine (exact_endParameters hopen).congr (parses_add_left hstarts ?_)
    rw [looksAt_iff.mp hlooks]
    decide
  · rename_i hlooks
    refine .ok ⟨?_, fun _ => ⟨trivial, trivial, trivial⟩⟩
    rw [agenda_cons, agenda_singleton, mul_assoc]
    exact parses_add_right ((starts_tok_self .bracketClose).mul _) (not_mem_singleton_of_not_looksAt hlooks)

theorem exactStep_functionStatement (hk : s.current = .kwFunc) :
    ExactStep (lang (tok .kwFunc) * (lang (tok .id) * (lang (tok .bracketOpen) *
      ((lang (tok .bracketClose) + Goal.parameters.language) * (Goal.functionBody.language * Q))))) Q s
      (functionStatement s) := by
  unfold functionStatement
  refine Ensures.check ?_
  refine exactStep_bind (exact_openNode_bump hk .funcDef _) fun t => ?_
  refine exactStep_bind exact_openParameters fun u => ?_
  split
  · have hopen := exact_openDelimiter u
      ((lang (tok .bracketClose) + Goal.parameters.language) * (Goal.functionBody.language * Q)) .bracketOpen
    refine Ensures.bind (hopen.and (ensures_delimiters_openDelimiter u _)) fun v hv => ?_
    exact (exactStep_parameterList hv.2).congr hv.1
  · rename_i hlooks
    have hnot := not_parses_tok_mul (s := u) (k := .bracketOpen) (P := (lang (tok .bracketClose) +
      Goal.parameters.language) * (Goal.functionBody.language * Q)) fun hk => hlooks (looksAt_iff.mpr hk)
    refine exactStep_bind ((spoils_report u _ _).exact (Q := Goal.functionBody.language * Q) hnot) fun v => ?_
    refine exactStep_leaving ?_ ⟨trivial, trivial⟩
    rw [agenda_singleton]
    exact exact_closeNode v _

theorem ensures_delimiters_expect (s : State) (k : Kind) (issue : Issue) (detail : String) :
    Ensures (s.expect k issue detail) fun t => t.delimiters = s.delimiters := by
  unfold State.expect
  split
  · exact ensures_delimiters_bump s
  · exact (ensures_same_claim s _ _).mono fun _ ht => ht.2

theorem exactStep_parameters (hopen : s.delimiters ≠ []) :
    ExactStep (Goal.parameters.language * Q) Q s (parameters s) := by
  have hunfold : (lang (tok .comma) * lang (tok .id))∗ * (lang (tok .bracketClose) * Q) =
      lang (tok .bracketClose) * Q + lang (tok .comma) * (Goal.parameters.language * Q) := by
    simp only [Goal.language]
    nth_rewrite 1 [← Language.one_add_self_mul_kstar_eq_kstar]
    simp only [add_mul, one_mul, mul_assoc]
  have hlanguage : Goal.parameters.language * Q = lang (tok .id) *
      (lang (tok .bracketClose) * Q + lang (tok .comma) * (Goal.parameters.language * Q)) := by
    rw [← hunfold]
    simp only [Goal.language, mul_assoc]
  rw [hlanguage]
  unfold parameters
  have hname := exact_expect s
    (lang (tok .bracketClose) * Q + lang (tok .comma) * (Goal.parameters.language * Q)) .id .expectedName "for parameter"
  refine Ensures.bind (hname.and (ensures_delimiters_expect s _ _ _)) fun t ht => ?_
  refine ExactStep.congr ?_ ht.1
  split
  · rename_i hlooks
    have hcomma := looksAt_iff.mp hlooks
    refine exactStep_leaving ?_ ⟨trivial, trivial⟩
    rw [agenda_singleton]
    refine (exact_bump hcomma).congr (parses_add_right ((starts_tok_self .bracketClose).mul Q) ?_)
    rw [hcomma]
    decide
  · rename_i hlooks
    refine exactStep_done ((exact_endParameters (ht.2 ▸ hopen)).congr ?_)
    exact parses_add_left ((starts_tok_self .comma).mul _) (not_mem_singleton_of_not_looksAt hlooks)

theorem exactStep_functionBody : ExactStep (Goal.functionBody.language * Q) Q s (functionBody s) := by
  have hlanguage : Goal.functionBody.language * Q =
      lang (tok .braceOpen) * (agenda [.statements true, .endBody] * Q) := by
    simp only [agenda_cons, agenda_nil, Goal.language, mul_one, mul_assoc]
  rw [hlanguage]
  unfold functionBody
  split
  · refine exactStep_leaving (exact_openDelimiter s _ .braceOpen) ⟨?_, trivial, trivial⟩
    rw [agenda_singleton]
    exact (starts_tok_self .braceClose).mul Q
  · rename_i hlooks
    refine exactStep_done (exact_thenClose ((spoils_report s _ _).exact ?_))
    exact not_parses_tok_mul fun hk => hlooks (looksAt_iff.mpr hk)

theorem exact_endBody (hopen : s.delimiters ≠ []) : Exact (lang (tok .braceClose) * Q) Q s (endBody s) := by
  unfold endBody
  exact exact_thenClose (exact_closeDelimiter Q hopen .braceClose _)

/-- The four kinds of statements. -/
theorem lang_stmt (Q : Language Token) : lang (.symbol .stmt) * Q =
    definitionThen Q +
    lang (tok .kwImport) * (lang (.symbol .string) * (lang (tok .kwAs) * (lang (tok .id) *
      (lang (tok .semicolon) * Q)))) +
    lang (tok .kwFunc) * (lang (tok .id) * (lang (tok .bracketOpen) *
      ((lang (tok .bracketClose) + Goal.parameters.language) * (Goal.functionBody.language * Q)))) +
    lang (tok .kwReturn) * (lang (.symbol .fst) * (lang (tok .semicolon) * Q)) := by
  rw [lang_symbol]
  simp only [Symbol.rule, lang_or, lang_append, lang_opt, lang_star, Goal.language, definitionThen, add_mul, mul_add,
    one_mul, mul_assoc]

theorem spoils_recovery (message : String) (s : State) :
    Ensures (recovery message s) fun a => ¬ a.2.Clean := by
  unfold recovery
  refine Ensures.bind (spoils_report (s.openNode .error) _ _) fun t ht => ?_
  exact Ensures.map (ensures_bump_significant t) fun u hu hclean => ht (hu.choose_spec.2.2.2.1.mp hclean)

theorem exactStep_recovery (message : String) (h : ¬ s.Parses (lang (.symbol .stmt) * Q)) :
    ExactStep (lang (.symbol .stmt) * Q) Q s (recovery message s) :=
  (spoils_recovery message s).mono fun _ ha =>
    ⟨⟨fun hs => absurd hs h, fun hparses => absurd hparses.1 ha⟩, fun hclean => absurd hclean ha⟩

theorem exactStep_statement : ExactStep (lang (.symbol .stmt) * Q) Q s (statement s) := by
  have hnot {k other : Kind} {P : Language Token} (hk : s.current = k) (hne : k ≠ other) :
      ¬ s.Parses (lang (tok other) * P) := by
    refine not_parses_tok_mul ?_
    rw [hk]
    exact hne
  have hnotDefinition {k : Kind} (hk : s.current = k) (hne : k ∉ [Kind.kwExport, .id]) :
      ¬ s.Parses (definitionThen Q) :=
    fun h => hne (hk ▸ h.current_mem (starts_definitionThen Q))
  have hdefinition {k : Kind} (hk : s.current = k) (hne : k ≠ .kwReturn ∧ k ≠ .kwFunc ∧ k ≠ .kwImport) :
      ExactStep (lang (.symbol .stmt) * Q) Q s (definition s) := by
    refine exactStep_definition.congr ?_
    rw [lang_stmt, parses_add_of_not (hnot hk hne.1), parses_add_of_not (hnot hk hne.2.1),
      parses_add_of_not (hnot hk hne.2.2)]
  unfold statement
  split
  · rename_i hk
    exact hdefinition hk (by decide)
  · rename_i hk
    exact hdefinition hk (by decide)
  · rename_i hk
    refine exactStep_done ((exact_importStatement hk).congr ?_)
    rw [lang_stmt, parses_add_of_not (hnot hk (by decide)), parses_add_of_not (hnot hk (by decide)),
      parses_add_of_not_left (hnotDefinition hk (by decide))]
  · rename_i hk
    refine (exactStep_functionStatement hk).congr ?_
    rw [lang_stmt, parses_add_of_not (hnot hk (by decide)), parses_add_of_not_left]
    exact not_parses_add (hnotDefinition hk (by decide)) (hnot hk (by decide))
  · rename_i hk
    refine (exactStep_returnStatement hk).congr ?_
    rw [lang_stmt, parses_add_of_not_left]
    exact not_parses_add (not_parses_add (hnotDefinition hk (by decide)) (hnot hk (by decide))) (hnot hk (by decide))
  · rename_i hid hexport' himport hfunc hreturn
    refine exactStep_recovery _ fun h => ?_
    have hmem := h.current_mem (starts_stmt.mul Q)
    simp only [List.mem_cons, List.not_mem_nil, or_false] at hmem
    obtain h | h | h | h | h := hmem
    · exact hexport' h
    · exact hid h
    · exact himport h
    · exact hfunc h
    · exact hreturn h

theorem exactStep_statements (inBody : Bool) (hstopped : s.isStopped = false)
    (hQ : (Goal.statements inBody).Before Q) :
    ExactStep ((lang (.symbol .stmt))∗ * Q) Q s (statements inBody s) := by
  have hunfold : (lang (.symbol .stmt))∗ * Q = Q + lang (.symbol .stmt) * ((lang (.symbol .stmt))∗ * Q) := by
    nth_rewrite 1 [← Language.one_add_self_mul_kstar_eq_kstar]
    rw [add_mul, one_mul, mul_assoc]
  unfold statements
  split
  · rename_i hstop
    refine .ok ⟨?_, fun _ => trivial⟩
    rw [agenda_nil, one_mul, hunfold]
    refine parses_add_left (starts_stmt.mul _) ?_
    have hcurrent : s.current = .error ∨ s.current = .braceClose := by
      simp only [hstopped, Bool.false_or, Bool.or_eq_true, Bool.and_eq_true, beq_iff_eq] at hstop
      obtain hend | ⟨-, hbrace⟩ := hstop
      · rw [current, List.isEmpty_iff.mp hend]
        exact .inl rfl
      · exact .inr hbrace
    obtain hk | hk := hcurrent
    · rw [hk]
      decide
    · rw [hk]
      decide
  · rename_i hstop
    simp only [Bool.or_eq_true, Bool.and_eq_true, beq_iff_eq, not_or, not_and] at hstop
    obtain ⟨⟨-, hend⟩, hbrace⟩ := hstop
    have hnot : ¬ s.Parses Q := by
      intro h
      cases inBody with
      | true => exact hbrace rfl (List.mem_singleton.mp (h.current_mem hQ))
      | false =>
          rw [show Q = 1 from hQ] at h
          obtain ⟨-, -, hend'⟩ | ⟨next, rest, -, hsignificant, -⟩ := s.significant_cases
          · exact hend hend'
          · have hnil := (Language.mem_one _).mp h.2
            rw [hsignificant] at hnil
            cases hnil
    have hfirst : ExactStep (lang (.symbol .stmt) * ((lang (.symbol .stmt))∗ * Q)) ((lang (.symbol .stmt))∗ * Q) s
        (if s.current = .braceClose then recovery "`\x7d` without an open function body" s else statement s) := by
      split
      · rename_i hk
        refine exactStep_recovery _ fun h => ?_
        have hmem := h.current_mem (starts_stmt.mul _)
        rw [hk] at hmem
        revert hmem
        decide
      · exact exactStep_statement
    refine Ensures.map hfirst fun a ha => ⟨?_, fun hclean => ?_⟩
    · rw [hunfold, parses_add_of_not_left hnot, ha.1, agenda_append, agenda_singleton, mul_assoc]
      rfl
    · refine lawful_append.mpr ⟨?_, ?_, trivial⟩
      · rw [agenda_singleton]
        exact ha.2 hclean
      · rw [agenda_nil, one_mul]
        exact hQ

/-! ### Runs -/

theorem exactStep_act {g : Goal} (hunlimited : s.Unlimited) (hopen : g.pending ≠ [] → s.delimiters ≠ [])
    (hg : g.Before Q) : ExactStep (g.language * Q) Q s (act g s) := by
  cases g with
  | statements inBody =>
      refine exactStep_statements inBody ?_ hg
      rw [isStopped, hunlimited.2]
      rfl
  | parameters => exact exactStep_parameters (hopen (by decide))
  | functionBody => exact exactStep_functionBody
  | endBody => exact exactStep_done (exact_endBody (hopen (by decide)))
  | endStatement form => exact exactStep_endStatement form
  | expression =>
      refine exactStep_expression ?_ hg
      rw [hunlimited.1]
      rfl
  | leaveExpression =>
      refine .ok ⟨?_, fun _ => trivial⟩
      rw [agenda_nil]
      exact parses_ascend.symm
  | suffixOf strength => exact exactStep_suffix strength hg
  | endOutput =>
      refine exactStep_done ?_
      rw [Goal.language, one_mul]
      exact exact_closeNode s Q
  | arguments => exact exactStep_moreArguments (hopen (by decide))
  | endGroup => exact exactStep_done (exact_endGroup (hopen (by decide)))
  | skip => exact hg.elim
  | endRecovery => exact hg.elim
  | endSkipped => exact hg.elim

end Statements

/-- A run ends clean precisely when the tokens ahead are a word of the agenda. Once something is reported the agenda may
hold anything. -/
theorem clean_run_iff {goals : List Goal} {s : State} (h : Settled s goals s) (hunlimited : s.Unlimited)
    (hlawful : s.Clean → Lawful 1 goals) : Ensures (run goals s) fun t => s.Parses (agenda goals) ↔ t.Clean := by
  fun_induction run goals s with
  | case1 s =>
      refine .ok ⟨fun hs => hs.1, fun hclean => ⟨hclean, ?_⟩⟩
      obtain ⟨front, hfront⟩ | ⟨-, hstopped | hend⟩ := h.concluding
      · exact absurd hfront.symm (List.append_ne_nil_of_right_ne_nil _ (List.cons_ne_nil _ _))
      · rw [isStopped, hunlimited.2] at hstopped
        cases hstopped
      · exact (Language.mem_one _).mpr (significant_of_atEnd hend)
  | case2 g goals s fault hact => exact .error
  | case3 g goals s new t hact ih =>
      obtain ⟨a, ha, hsettled⟩ := h.act
      rw [hact] at ha
      cases ha
      have hreached : Reaches s t := hsettled.fits.reached
      by_cases hclean : s.Clean
      · obtain ⟨hbefore, hrest⟩ := hlawful hclean
        rw [mul_one] at hbefore
        have hopen : g.pending ≠ [] → s.delimiters ≠ [] := by
          intro hpending hnil
          have hopened := h.fits.opened_eq
          rw [hnil, pendingOf_cons, List.map_nil] at hopened
          exact hpending (List.append_eq_nil_iff.mp hopened.symm).1
        obtain ⟨hexact, hnew⟩ := exactStep_act hunlimited hopen hbefore _ hact
        rw [agenda_cons, hexact, ← agenda_append]
        refine ih hsettled.rebase (hreached.unlimited hunlimited) fun ht => lawful_append.mpr ⟨?_, hrest⟩
        rw [mul_one]
        exact hnew ht
      · refine (ih hsettled.rebase (hreached.unlimited hunlimited) fun ht => ?_).mono fun u hu => ?_
        · exact absurd (hreached.clean ht) hclean
        · refine ⟨fun hs => absurd hs.1 hclean, fun hu' => ?_⟩
          exact absurd (hreached.clean (hu.mpr hu').1) hclean

end Parse

open Grammar Parse in
/-- A parse without limits reports nothing precisely when the significant tokens of the source are derivable from the
grammar. -/
theorem parse_accepts_grammar (source : String) :
    ∃ p, parse .none source = .ok p ∧
      (p.diagnostics = [] ↔ Derives (.symbol .root) ((lex source).filter fun t => !t.isTrivia)) := by
  obtain ⟨s, hrun, hreached, -, ⟨e, hlimits, -⟩ | ⟨-, -, hparse⟩⟩ := ofTokens_eq .none (paired_lex source)
  · exact absurd rfl hlimits
  · refine ⟨_, hparse, ?_⟩
    have hlawful : Lawful 1 [.statements false] := ⟨one_mul 1, trivial⟩
    have hiff : (State.start .none (lex source)).Parses (agenda [.statements false]) ↔ s.Clean :=
      clean_run_iff (Settled.start .none (paired_lex source)) ⟨rfl, rfl⟩ (fun _ => hlawful) s hrun
    rw [List.reverse_eq_nil_iff, ← hreached.clean_iff ⟨rfl, rfl⟩, ← hiff]
    rw [← mem_lang, lang_symbol, Symbol.rule, lang_star, agenda_singleton]
    exact ⟨fun h => h.2, fun h => ⟨⟨rfl, rfl⟩, h⟩⟩

end Transducer
