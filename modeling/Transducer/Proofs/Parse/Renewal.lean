import Transducer.Proofs.Parse.Reporting

/-!
# Between a missing `;` and the next token

A `;` is reported missing in two places, at the end of a statement and at the end of an import. A condition on the state
that survives everything else survives a whole step if it survives these two reports. Some conditions hold only once a
token has been consumed; behind a statement the goals are idle, and they report nothing but the next token before they
consume it.
-/

namespace Transducer.Parse

open State

/-! ### Steps up to a missing `;` -/

namespace Watched

variable {p q : State → Prop} {s : State}

theorem ensures_of_agree {following : List Goal} {r : Step}
    (h : Agree (StepRel (fun _ s t => s = t ∧ p s) following) r r) : Ensures r fun a => p a.2 :=
  fun a ha => (h a a ha ha).states.2

section

variable (hp : Watched p q) (h : p s)
include hp h

theorem skipOne (k : Kind) : Ensures (s.skipOne k) p := by
  unfold State.skipOne
  split
  · exact hp.bump h
  · exact .ok h

theorem endRecovery : Ensures (Parse.endRecovery s) p := (hp.skipOne h _).bind fun _ ht => hp.closeNode ht

theorem endSkipped : Ensures (Parse.endSkipped s) p :=
  (hp.closeNode h).bind fun _ ht => (hp.skipOne ht _).bind fun _ hu => hp.closeNode hu

theorem recovery (message : String) : Ensures (Parse.recovery message s) fun a => p a.2 :=
  (hp.report (hp.openNode h .error) rfl message).bind fun _ ht => (hp.bump ht).map fun _ hu => hu

theorem statement (himport : s.current = .kwImport → Ensures (importStatement s) p) :
    Ensures (Parse.statement s) fun a => p a.2 := by
  have hdefinition : Ensures (Parse.definition s) fun a => p a.2 :=
    ensures_of_agree (hp.bisimulation.definition ⟨rfl, h⟩)
  unfold Parse.statement
  split
  · exact hdefinition
  · exact hdefinition
  · rename_i hcurrent
    exact (himport hcurrent).map fun _ ht => ht
  · exact ensures_of_agree (hp.bisimulation.functionStatement ⟨rfl, h⟩)
  · exact ensures_of_agree (hp.bisimulation.returnStatement ⟨rfl, h⟩)
  · exact hp.recovery h _

theorem statements (inBody : Bool)
    (himport : s.isStopped = false → s.current = .kwImport → Ensures (importStatement s) p) :
    Ensures (Parse.statements inBody s) fun a => p a.2 := by
  unfold Parse.statements
  split
  · exact .ok h
  · rename_i hgo
    simp only [Bool.or_eq_true, not_or, Bool.not_eq_true] at hgo
    refine Ensures.map (p := fun a => p a.2) ?_ fun _ ha => ha
    split
    · exact hp.recovery h _
    · exact hp.statement h (himport hgo.1.1)

theorem endStatement (form : Form)
    (hend : (s.atEnd || s.atBoundary) = true → Ensures (s.expectSemicolon form.afterBody) p) :
    Ensures (Parse.endStatement form s) fun a => p a.2 := by
  unfold Parse.endStatement
  split
  · rename_i hboundary
    exact ((hend hboundary).bind fun _ ht => hp.closeNode ht).map fun _ ht => ht
  · exact (hp.report (hp.openNode h .error) rfl _).map fun _ ht => ht

/-- A step preserves the condition if the two reports do. -/
theorem act {g : Goal} {goals : List Goal} (hentering : Entering (g :: goals) s)
    (himport : ∀ inBody, g = .statements inBody → s.isStopped = false → s.current = .kwImport →
      Ensures (importStatement s) p)
    (hend : ∀ form, g = .endStatement form → (s.atEnd || s.atBoundary) = true →
      Ensures (s.expectSemicolon form.afterBody) p) :
    Ensures (Parse.act g s) fun a => p a.2 := by
  have hinside (hended : g.ended = []) : Ensures (Parse.act g s) fun a => p a.2 := by
    intro a ha
    obtain ⟨-, -, ⟨-, hp⟩ | ⟨hmem, -⟩⟩ := hp.bisimulation.act ⟨rfl, h⟩ hentering a a ha ha
    · exact hp
    · rw [hended] at hmem
      cases hmem
  cases g with
  | statements inBody => exact hp.statements h inBody (himport inBody rfl)
  | endStatement form => exact hp.endStatement h form (hend form rfl)
  | endRecovery => exact (hp.endRecovery h).map fun _ ht => ht
  | endSkipped => exact (hp.endSkipped h).map fun _ ht => ht
  | _ => exact hinside rfl

end

end Watched

/-! ### Idle goals -/

/-- Goals that report nothing but the next token, up to the first token that they consume. -/
def Goal.isIdle (g : Goal) : Bool := g.isTolerant || g == .functionBody

theorem isIdle_of_isTolerant {g : Goal} (h : g.isTolerant = true) : g.isIdle = true := Bool.or_eq_true_iff.mpr (.inl h)

/-- A condition `w` that idle goals preserve and that becomes `p` where a token is consumed. -/
structure Renewed (w p q : State → Prop) : Prop extends Watched p q where
  congrIdle {s t : State} (h : w s) (heq : t.record = s.record) : w t
  flushIdle {s : State} (h : w s) : w s.flush
  withDelimiters {s : State} (h : w s) (ds : List Delimiter) : w { s with delimiters := ds }
  claimAgain {s : State} (h : w s) {r : Except Fault Diagnostic}
    (hr : Ensures r fun d => d.issue.isStructural = true ∨ d.issue = .unexpectedToken ∧ d.span = s.currentSpan) :
    Ensures (s.claim s.currentSpan.start r) w
  renew {s : State} (h : w s) : Ensures s.bump p
  idle {s : State} (h : p s) : w s

namespace Renewed

variable {w p q : State → Prop} {s : State} (hp : Renewed w p q) (h : w s)
include hp h

theorem openNode (kind : Kind) : w (s.openNode kind) := hp.congrIdle (hp.flushIdle h) rfl

theorem closeNode : Ensures s.closeNode w := fun _ ht => hp.congrIdle h (record_closeNode ht)

theorem report (detail : String) : Ensures (s.report .unexpectedToken detail) w :=
  hp.claimAgain h (.after fun _ => .ok (.inr ⟨rfl, rfl⟩))

theorem skipOne (k : Kind) : Ensures (s.skipOne k) w := by
  unfold State.skipOne
  split
  · exact (hp.renew h).mono fun _ => hp.idle
  · exact .ok h

theorem closeDelimiter (closer : Kind) (construct : String) : Ensures (s.closeDelimiter closer construct) w := by
  unfold State.closeDelimiter
  split
  · exact hp.skipOne h closer
  · rename_i opener openers _
    have hforgot := hp.withDelimiters h openers
    dsimp only
    split
    · split
      · exact (hp.renew hforgot).mono fun _ => hp.idle
      · exact hp.claimAgain hforgot (.after fun _ => .ok (.inl (isStructural_unclosed closer)))
    · exact .error

/-- A keyword is consumed as the first token of its statement. -/
theorem keyword (kind : Kind) :
    Agree (fun s t => s = t ∧ p s) (s.openNode kind).bump (s.openNode kind).bump :=
  Preserved.agree (hp.renew (hp.openNode h kind))

theorem definition (hcurrent : s.current = .id ∨ s.current = .kwExport) :
    Ensures (Parse.definition s) fun a => p a.2 := by
  have hopened : w (s.openNode .varDef) := hp.openNode h .varDef
  have hskip : Ensures ((s.openNode .varDef).skipOne .kwExport) fun u => p u ∨ w u ∧ u.looksAt .id = true := by
    unfold State.skipOne
    split
    · exact (hp.renew hopened).mono fun _ => .inl
    · rename_i hexport
      rw [looksAt_iff, current_openNode] at hexport
      refine .ok (.inr ⟨hopened, looksAt_iff.mpr ?_⟩)
      rw [current_openNode]
      exact hcurrent.resolve_right hexport
  refine Watched.ensures_of_agree (hp.bisimulation.definition_of_name (Preserved.agree hskip) ?_)
  rintro u _ ⟨rfl, hu | ⟨hu, hlooks⟩⟩
  · exact hp.bisimulation.expect ⟨rfl, hu⟩ (by decide) rfl _
  · rw [State.expect, if_pos hlooks]
    exact Preserved.agree (hp.renew hu)

theorem recovery (message : String) : Ensures (Parse.recovery message s) fun a => p a.2 :=
  (hp.report (hp.openNode h .error) message).bind fun _ ht => (hp.renew ht).map fun _ hu => hu

theorem importStatement : Ensures (Parse.importStatement s) q := by
  have himport := hp.bisimulation.importStatement_of_bump fun _ => hp.keyword h .importStmt
  exact fun t ht => (himport t t ht ht).2

/-- A statement consumes its first token before anything else can be reported. An import is read as a whole. -/
theorem statement (himport : s.current = .kwImport → Ensures (Parse.importStatement s) w) :
    Ensures (Parse.statement s) fun a => p a.2 ∨ w a.2 ∧ a.1 = [] := by
  unfold Parse.statement
  split
  · rename_i hid
    exact (hp.definition h (.inl hid)).mono fun _ => .inl
  · rename_i hexport
    exact (hp.definition h (.inr hexport)).mono fun _ => .inl
  · rename_i hcurrent
    exact (himport hcurrent).map fun _ ht => .inr ⟨ht, rfl⟩
  · have hfunction := hp.bisimulation.functionStatement_of_bump fun _ => hp.keyword h .funcDef
    exact (Watched.ensures_of_agree hfunction).mono fun _ => .inl
  · have hreturn := hp.bisimulation.returnStatement_of_bump fun _ => hp.keyword h .returnStmt
    exact (Watched.ensures_of_agree hreturn).mono fun _ => .inl
  · exact (hp.recovery h _).mono fun _ => .inl

theorem statements (inBody : Bool)
    (himport : s.isStopped = false → s.current = .kwImport → Ensures (Parse.importStatement s) w) :
    Ensures (Parse.statements inBody s) fun a => p a.2 ∨ w a.2 ∧ ∀ g ∈ a.1, g.isTolerant = true := by
  unfold Parse.statements
  split
  · exact .ok (.inr ⟨h, List.forall_mem_nil _⟩)
  · rename_i hgo
    simp only [Bool.or_eq_true, not_or, Bool.not_eq_true] at hgo
    refine Ensures.map (p := fun a => p a.2 ∨ w a.2 ∧ a.1 = []) ?_ fun a ha => ?_
    · split
      · exact (hp.recovery h _).mono fun _ => .inl
      · exact hp.statement h (himport hgo.1.1)
    · refine ha.imp_right fun ⟨ha, hnil⟩ => ⟨ha, ?_⟩
      dsimp only
      rw [hnil]
      exact List.forall_mem_singleton.mpr rfl

theorem act_idle {g : Goal} (hg : g.isIdle = true)
    (himport : ∀ inBody, g = .statements inBody → s.isStopped = false → s.current = .kwImport →
      Ensures (Parse.importStatement s) w) :
    Ensures (Parse.act g s) fun a => p a.2 ∨ w a.2 ∧ ∀ g ∈ a.1, g.isTolerant = true := by
  have hdone {r : Except Fault State} (hr : Ensures r w) :
      Ensures (done r) fun a => p a.2 ∨ w a.2 ∧ ∀ g ∈ a.1, g.isTolerant = true :=
    hr.map fun t ht => .inr ⟨ht, List.forall_mem_nil _⟩
  cases g with
  | statements inBody => exact hp.statements h inBody (himport inBody rfl)
  | skip =>
      rw [Parse.act, Parse.skip]
      split
      · exact .ok (.inr ⟨h, List.forall_mem_nil _⟩)
      · exact (hp.renew h).map fun _ ht => .inl ht
  | functionBody =>
      rw [Parse.act, Parse.functionBody]
      split
      · refine Ensures.map (p := p) ?_ fun _ ht => .inl ht
        exact .after fun _ => hp.renew (hp.withDelimiters h _)
      · exact hdone ((hp.report h _).bind fun _ ht => hp.closeNode ht)
  | endBody => exact hdone ((hp.closeDelimiter h _ _).bind fun _ ht => hp.closeNode ht)
  | endRecovery => exact hdone ((hp.skipOne h _).bind fun _ ht => hp.closeNode ht)
  | endSkipped =>
      exact hdone ((hp.closeNode h).bind fun _ ht => (hp.skipOne ht _).bind fun _ hu => hp.closeNode hu)
  | _ => cases hg

end Renewed

end Transducer.Parse
