import Transducer.Proofs.Ast.Layout
import Transducer.Proofs.Parse.Layout
import Transducer.Proofs.Program.Totality

/-!
# Layout and comments never change the result

Positions reach a builder only through the spans of what it reports. Building an expression with and without positions
therefore gives the same values and the same table, and it reports the same issues. Together with the parser and the
reading of trees, which are blind to layout, this holds of whole compilations.
-/

namespace Transducer

namespace Builder

/-- The builders differ in the places of what they reported, at most. -/
structure Alike (b c : Builder) : Prop where
  table : b.table = c.table
  current : b.current = c.current
  counter : b.counter = c.counter
  hasErrors : Diagnostic.hasErrors b.diagnostics = Diagnostic.hasErrors c.diagnostics

theorem Alike.refl (b : Builder) : Alike b b := ⟨rfl, rfl, rfl, rfl⟩

/-- The same value, and builders that are alike. -/
def ResultAlike {α : Type} (p q : α × Builder) : Prop := p.1 = q.1 ∧ Alike p.2 q.2

section Operations

variable {b c : Builder}

theorem Alike.report (h : Alike b c) (issue : Issue) (span span' : Span) (detail : String) :
    Alike (b.report issue span detail) (c.report issue span' detail) := by
  refine ⟨h.table, h.current, h.counter, ?_⟩
  change (issue.severity == .error || Diagnostic.hasErrors b.diagnostics) =
    (issue.severity == .error || Diagnostic.hasErrors c.diagnostics)
  rw [h.hasErrors]

theorem Alike.hoist (h : Alike b c) (value : Re) : ResultAlike (b.hoist value) (c.hoist value) := by
  unfold Builder.hoist
  rw [h.current, h.table, h.counter]
  split
  · exact ⟨rfl, h⟩
  · exact ⟨rfl, rfl, rfl, rfl, h.hasErrors⟩

theorem Alike.repeated (h : Alike b c) (lower upper : Nat) (value : Option Re) :
    ResultAlike (repeated lower upper value b) (repeated lower upper value c) := by
  unfold Builder.repeated
  cases value with
  | none => exact ⟨rfl, h⟩
  | some re =>
      dsimp only
      split
      · exact ⟨rfl, h⟩
      · have hhoist := h.hoist re
        generalize b.hoist re = p at hhoist ⊢
        generalize c.hoist re = q at hhoist ⊢
        obtain ⟨unit, b'⟩ := p
        obtain ⟨unit', c'⟩ := q
        obtain ⟨hunit, halike⟩ := hhoist
        dsimp only at hunit halike
        subst hunit
        cases unit with
        | none => exact ⟨rfl, halike⟩
        | some unit => exact ⟨rfl, halike⟩

theorem Alike.reference (h : Alike b c) (span span' : Span) (name : String) :
    ResultAlike (b.reference span name) (c.reference span' name) := by
  unfold Builder.reference
  rw [h.table]
  split
  · split
    · exact ⟨rfl, h⟩
    · exact ⟨rfl, h⟩
  · exact ⟨rfl, h.report .undefinedReference span span' name⟩

theorem Alike.withOutput (h : Alike b c) (span span' : Span) (input output : Option Re) :
    ResultAlike (b.withOutput span input output) (c.withOutput span' input output) := by
  unfold Builder.withOutput
  split
  · split
    · exact ⟨rfl, h⟩
    · exact ⟨rfl, h.report .outputNotLiteral span span' _⟩
  · exact ⟨rfl, h⟩

/-- Where a literal starts matters to the place of a malformed escape only. -/
theorem Alike.literal (h : Alike b c) (content : Option (String × Nat)) :
    Agree ResultAlike (b.literal content) (c.literal (content.map fun r => (r.1, 0))) := by
  cases content with
  | none => exact .ok ⟨rfl, h⟩
  | some r =>
      obtain ⟨raw, start⟩ := r
      unfold Builder.literal
      dsimp only [Option.map_some]
      cases Literal.unescape raw with
      | ok cs => exact .ok ⟨rfl, h⟩
      | error e =>
          have hspans (start : Nat) : Agree (fun _ _ : Span => True)
              (Span.checked (start + e.start) (start + e.stop)) (Span.checked (0 + e.start) (0 + e.stop)) :=
            fun _ _ _ _ => trivial
          exact (hspans start).bind fun span span' _ => .ok ⟨rfl, h.report .invalidNumericEscape span span' e.message⟩

end Operations

/-! ### Expressions -/

/-- A computation without a builder is the same on both sides. -/
theorem agree_self {ε α : Type} (r : Except ε α) : Agree Eq r r := by
  rintro x y rfl hy
  cases hy
  rfl

mutual

theorem agree_build (a : Alphabet) (e : Expr) {b c : Builder} (h : Alike b c) :
    Agree ResultAlike (build a e b) (build a e.unplaced c) := by
  cases e with
  | missing => exact .ok ⟨rfl, h⟩
  | chain span op operators operands =>
      refine (agree_buildAll a operands h).bind fun p q hpq => ?_
      obtain ⟨values, b'⟩ := p
      obtain ⟨hvalues, halike⟩ := hpq
      subst hvalues
      exact (agree_self (chainValue a op operators q.1)).bind fun value value' hvalue => .ok ⟨hvalue, halike⟩
  | concat span operands =>
      refine (agree_buildAll a operands h).bind fun p q hpq => .ok ⟨?_, hpq.2⟩
      rw [hpq.1]
  | output span lhs rhs =>
      refine (agree_build a lhs h).bind fun p q hpq => (agree_build a rhs hpq.2).bind fun p' q' hpq' => .ok ?_
      rw [hpq.1, hpq'.1]
      exact hpq'.2.withOutput rhs.span rhs.unplaced.span q.1 q'.1
  | weight span operand value => exact .ok ⟨rfl, h.report _ _ _ _⟩
  | repetition span operand isRange lower upper =>
      rw [Expr.unplaced, build, build]
      cases repetitionBounds isRange lower upper with
      | none => exact .ok ⟨rfl, h⟩
      | some bounds =>
          refine .ite Iff.rfl (.ok ⟨rfl, h⟩) ((agree_build a operand h).bind fun p q hpq => .ok ?_)
          rw [hpq.1]
          exact hpq.2.repeated bounds.1 bounds.2 q.1
  | closure span operand marker =>
      refine (agree_build a operand h).bind fun p q hpq => .ok ⟨?_, hpq.2⟩
      rw [hpq.1]
  | reference span name =>
      cases name with
      | none => exact .ok ⟨rfl, h⟩
      | some name =>
          obtain ⟨hvalue, halike⟩ := h.reference span (.point 0) name
          exact .ok ⟨congrArg some hvalue, halike⟩
  | literal span content => exact h.literal content
  | group span inner => exact agree_build a inner h
  | call span name arguments => exact .ok ⟨rfl, h.report _ _ _ _⟩

theorem agree_buildAll (a : Alphabet) (es : List Expr) {b c : Builder} (h : Alike b c) :
    Agree ResultAlike (buildAll a es b) (buildAll a (Expr.unplacedAll es) c) := by
  cases es with
  | nil => exact .ok ⟨rfl, h⟩
  | cons e es =>
      refine (agree_build a e h).bind fun p q hpq => (agree_buildAll a es hpq.2).bind fun p' q' hpq' => .ok ⟨?_, hpq'.2⟩
      rw [hpq.1, hpq'.1]

end

/-! ### Statements -/

theorem agree_define (a : Alphabet) (name : String) (body : Expr) {b c : Builder} (h : Alike b c) :
    Agree Alike (define a name body b) (define a name body.unplaced c) := by
  have hbegin : Agree Alike (b.beginDefinition name) (c.beginDefinition name) := by
    unfold beginDefinition
    rw [h.current]
    cases c.current with
    | none => exact .ok ⟨h.table, rfl, rfl, h.hasErrors⟩
    | some _ => exact fun _ _ hfault => nomatch hfault
  refine hbegin.bind fun _ _ h => (agree_build a body h).bind fun p q hpq => ?_
  obtain ⟨value, b'⟩ := p
  obtain ⟨value', c'⟩ := q
  obtain ⟨rfl, halike⟩ := hpq
  refine .ite (by rw [halike.current]) (.ok ⟨?_, rfl, halike.counter, halike.hasErrors⟩) ?_
  · dsimp only
    rw [halike.table]
  · exact fun _ _ hfault => nomatch hfault

theorem agree_visit (a : Alphabet) (stmt : Stmt) {b c : Builder} (h : Alike b c) :
    Agree Alike (visit a b stmt) (visit a c stmt.unplaced) := by
  have hpath (path : Expr) : pathText path.unplaced = pathText path := by
    cases path with
    | literal span content => cases content <;> rfl
    | _ => rfl
  cases stmt with
  | definition span exported name body =>
      cases name with
      | none => exact .ok h
      | some name => exact agree_define a name body h
  | importing span path renamed =>
      rw [Stmt.unplaced, visit, visit, hpath]
      exact .ok (h.report _ _ _ _)
  | function span name params body => exact .ok (h.report _ _ _ _)
  | returning span body => exact .ok (h.report _ _ _ _)

theorem agree_visitAll (a : Alphabet) (stmts : List Stmt) {b c : Builder} (h : Alike b c) :
    Agree Alike (stmts.foldlM (visit a) b) ((Stmt.unplacedAll stmts).foldlM (visit a) c) := by
  induction stmts generalizing b c with
  | nil => exact .ok h
  | cons stmt stmts ih =>
      rw [Stmt.unplacedAll, List.foldlM_cons, List.foldlM_cons]
      exact (agree_visit a stmt h).bind fun _ _ h => ih h

/-- Two runs are compared with a third one, which is known to have a result. -/
theorem run_alike_of_agree (a : Alphabet) {stmts stmts' third : List Stmt}
    (hleft : Agree Alike (run a stmts) (run a third)) (hright : Agree Alike (run a stmts') (run a third)) :
    ∃ b c, run a stmts = .ok b ∧ run a stmts' = .ok c ∧ b.table = c.table ∧
      Diagnostic.hasErrors b.diagnostics = Diagnostic.hasErrors c.diagnostics := by
  obtain ⟨b, hb, -⟩ := run_returns a stmts
  obtain ⟨c, hc, -⟩ := run_returns a stmts'
  obtain ⟨m, hm, -⟩ := run_returns a third
  have hbm : Alike b m := hleft b m hb hm
  have hcm : Alike c m := hright c m hc hm
  exact ⟨b, c, hb, hc, hbm.table.trans hcm.table.symm, hbm.hasErrors.trans hcm.hasErrors.symm⟩

/-- Statements that are the same but for positions are built into the same table. -/
theorem run_alike (a : Alphabet) {stmts stmts' : List Stmt} (h : Stmt.unplacedAll stmts = Stmt.unplacedAll stmts') :
    ∃ b c, run a stmts = .ok b ∧ run a stmts' = .ok c ∧ b.table = c.table ∧
      Diagnostic.hasErrors b.diagnostics = Diagnostic.hasErrors c.diagnostics := by
  have hleft : Agree Alike (run a stmts) (run a (Stmt.unplacedAll stmts)) := agree_visitAll a stmts (.refl start)
  rw [h] at hleft
  exact run_alike_of_agree a hleft (agree_visitAll a stmts' (.refl start))

/-! ### Statements that define nothing -/

/-- Such a statement is reported, and the report is not about an error. -/
theorem Alike.visit_of_not_isDefinition (h : Alike b c) (a : Alphabet) {stmt : Stmt}
    (hother : stmt.isDefinition = false) : ∃ b', visit a b stmt = .ok b' ∧ Alike b' c := by
  have hreport {issue : Issue} (hissue : issue.severity = .warning) (span : Span) (detail : String) :
      Alike (b.report issue span detail) c := by
    refine ⟨h.table, h.current, h.counter, ?_⟩
    change (issue.severity == .error || Diagnostic.hasErrors b.diagnostics) = Diagnostic.hasErrors c.diagnostics
    rw [hissue, h.hasErrors]
    rfl
  cases stmt with
  | definition span exported name body => cases hother
  | importing span path renamed => exact ⟨_, rfl, hreport rfl _ _⟩
  | function span name params body => exact ⟨_, rfl, hreport rfl _ _⟩
  | returning span body => exact ⟨_, rfl, hreport rfl _ _⟩

theorem agree_visitAll_definitions (a : Alphabet) (stmts : List Stmt) {b c : Builder} (h : Alike b c) :
    Agree Alike (stmts.foldlM (visit a) b) ((Stmt.unplacedAll (stmts.filter Stmt.isDefinition)).foldlM (visit a) c) := by
  induction stmts generalizing b c with
  | nil => exact .ok h
  | cons stmt stmts ih =>
      rw [List.foldlM_cons]
      cases hstmt : stmt.isDefinition with
      | true =>
          rw [List.filter_cons_of_pos hstmt, Stmt.unplacedAll, List.foldlM_cons]
          exact (agree_visit a stmt h).bind fun _ _ h => ih h
      | false =>
          rw [List.filter_cons_of_neg (Bool.eq_false_iff.mp hstmt)]
          obtain ⟨b', hvisit, halike⟩ := h.visit_of_not_isDefinition a hstmt
          rw [hvisit]
          exact ih halike

/-- Only definitions matter: without the other statements the table and the verdict are the same. -/
theorem run_definitions (a : Alphabet) (stmts : List Stmt) :
    ∃ b c, run a stmts = .ok b ∧ run a (stmts.filter Stmt.isDefinition) = .ok c ∧ b.table = c.table ∧
      Diagnostic.hasErrors b.diagnostics = Diagnostic.hasErrors c.diagnostics :=
  run_alike_of_agree a (agree_visitAll_definitions a stmts (.refl start)) (agree_visitAll a _ (.refl start))

end Builder

/-! ### Compilations -/

/-- Layout and comments never change the result. Sources with the same significant tokens hit the same limit, or both
compile: they pay the same, their trees are the same without trivia, and they have the same table, the same text and
the same verdict. -/
theorem compile_ignores_layout (options : Options) {source source' : String}
    (h : (lex source).filter (fun t => !t.isTrivia) = (lex source').filter fun t => !t.isTrivia) :
    (∃ e, compile options source = .error (.limit e) ∧ compile options source' = .error (.limit e)) ∨
      ∃ c c', compile options source = .ok c ∧ compile options source' = .ok c' ∧
        c.consumed = c'.consumed ∧ c.root.bare = c'.root.bare ∧ c.program.table = c'.program.table ∧
        c.program.text = c'.program.text ∧ c.isValid = c'.isValid := by
  obtain ⟨e, hparse, hparse'⟩ | ⟨p, q, hparse, hparse', halike⟩ := parse_alike options.limits h
  · refine .inl ⟨e, ?_, ?_⟩
    · rw [compile, hparse]
      rfl
    · rw [compile, hparse']
      rfl
  · obtain ⟨b, b', hrun, hrun', htable, herrors⟩ :=
      Builder.run_alike options.alphabet (Stmt.unplacedAll_ofRoot halike.root)
    refine .inr ⟨_, _, compile_eq hparse hrun, compile_eq hparse' hrun', halike.consumed, halike.root, htable, ?_, ?_⟩
    · exact congrArg (fun t => Program.text ⟨t, options.alphabet⟩) htable
    · rw [Compilation.isValid, Compilation.isValid, halike.hasErrors, Diagnostic.hasErrors_reverse, herrors,
        ← Diagnostic.hasErrors_reverse b'.diagnostics]

/-- The same definitions on one line without a blank, and on several lines with a comment. -/
theorem compile_ignores_layout_of_comment :
    ∃ c c', compile .standard "x='a''b';y=x*;" = .ok c ∧
      compile .standard "x = 'a' 'b'\n  ; # two letters\ny = x * ;\n" = .ok c' ∧
      c.consumed = c'.consumed ∧ c.root.bare = c'.root.bare ∧ c.program.table = c'.program.table ∧
      c.program.text = c'.program.text ∧ c.isValid = c'.isValid := by
  have htokens : (lex "x='a''b';y=x*;").filter (fun t => !t.isTrivia) =
      (lex "x = 'a' 'b'\n  ; # two letters\ny = x * ;\n").filter fun t => !t.isTrivia := by
    decide +kernel
  have hcompiles : (compile .standard "x='a''b';y=x*;").toOption.isSome = true := by
    decide +kernel
  obtain ⟨e, hlimit, -⟩ | hsame := compile_ignores_layout .standard htokens
  · rw [hlimit] at hcompiles
    cases hcompiles
  · exact hsame

end Transducer
