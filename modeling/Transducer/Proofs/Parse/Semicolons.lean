import Transducer.Proofs.Parse.Inserting
import Transducer.Proofs.Parse.Pointing

/-!
# Adding a missing `;`

The parse of a source is compared with the parse of the same source in which a `;` has been added where it was reported
missing. Up to that place both build the same; there the first parse reports the `;` and the second one consumes it, and
from then on they see the same tokens again.
-/

namespace Transducer

namespace Parse

open State

variable {o : Nat} {us vs : List Token} {s t : State} {following : List Goal}

/-! ### The end of a statement -/

/-- The first parse alone skips tokens from the place on. -/
theorem agree_step_skipping {r : Except Fault State} {r' : Step} (h : Ensures r (Reached o o))
    (hfollowing : ∀ g ∈ following, g.isIdle = true) :
    Agree (StepKeeps o vs following) (leaving [.skip, .endSkipped] r) r' := by
  have hskipping : ∀ g ∈ [Goal.skip, .endSkipped], g.isIdle = true := by decide
  exact agree_step_astray (h.map fun _ ht => .inr ⟨ht, .inr (List.forall_mem_append.mpr ⟨hskipping, hfollowing⟩)⟩)

/-- What is left behind the end of a statement: the second parse may have consumed the `;`. -/
def Ended (o : Nat) (vs : List Token) (s t : State) : Prop := Keeps o vs s t ∨ Gained s t ∧ t.Reached o (o + 1)

theorem Ended.closeNode (h : Ended o vs s t) : Agree (Ended o vs) s.closeNode t.closeNode := by
  obtain h | ⟨hgained, hpast⟩ := h
  · exact h.closeNode.mono fun _ _ => .inl
  · intro s' t' hs ht
    exact .inr ⟨hgained.closeNode s' t' hs ht, (watched_passed o).closeNode hpast t' ht⟩

theorem agree_done_ended {r r' : Except Fault State} (h : Agree (Ended o vs) r r') :
    Agree (StepKeeps o vs following) (done r) (done r') := by
  refine h.map fun _ _ h => ?_
  obtain (hpast | h) | h := h
  · exact .inl (.inl hpast.sidelined)
  · exact .inr ⟨rfl, .inl h⟩
  · exact .inr ⟨rfl, .inr h⟩

namespace Abreast

/-- In front of the place a `;` is missing at the same gap in both parses, which is not the place. -/
theorem gap_ne (h : Abreast o us vs s t) (hne : us ≠ []) : s.gap ≠ o ∧ t.gap ≠ o := by
  obtain ⟨token, us', -, hs, ht, htrivia, -, hwidth⟩ := h.ahead_cases hne
  have hlt := h.quiet_left.standing.currentSpan_lt (h.atEnd hne).1
  have hgap := h.quiet_left.standing.gap_le
  have hsame : t.gap = s.gap := by
    simp only [State.gap, State.currentSpan, hs, ht, h.lastEnd_eq, h.offset_eq, htrivia]
  have hstop : s.currentSpan.stop = s.offset + Token.totalWidth s.trivia + token.width := by
    simp only [State.currentSpan, hs]
  rw [hsame]
  omega

/-- At the place the first parse reports the `;` that the second one consumes. -/
theorem gained (h : Abreast o [] vs s t) (position : Nat) (r : Except Fault Diagnostic) :
    Agree Gained (s.claim position r) t.bump := by
  intro s' t' hs ht
  have hright := (Move.bumped ht).unlimited h.right
  have htrivia : t.trivia = [] := by
    rw [State.trivia, h.rest_right]
    rfl
  obtain ⟨token, ts, hahead, rfl⟩ := bump_eq_ok ht
  obtain ⟨rfl, rfl⟩ := List.cons.inj (h.ahead_right.symm.trans hahead)
  have hframes : Frame.Gain (s.top :: s.below) (⟨t.top.kind, .leaf .semicolon ::
      ((t.trivia.map Tree.leaf).reverse ++ t.top.children)⟩ :: t.below) := by
    rw [htrivia, h.top_eq, h.below_eq]
    refine .top ?_ s.below
    have hleaf := Tree.Gains.leaf s.top.children.reverse []
    rwa [List.append_nil, ← List.reverse_cons] at hleaf
  obtain ⟨rfl, -⟩ | ⟨d, -, -, rfl⟩ := claim_eq_ok hs
  · exact ⟨h.rest_left.symm, hframes, h.delimiters_eq, h.left, hright⟩
  · exact ⟨h.rest_left.symm, hframes, h.delimiters_eq, h.left, hright⟩

theorem expectSemicolon (h : Abreast o us vs s t) (detail : String) :
    Agree (Ended o vs) (s.expectSemicolon detail) (t.expectSemicolon detail) := by
  by_cases hne : us = []
  · subst hne
    have hlooks : t.looksAt .semicolon = true := looksAt_iff.mpr h.current_right
    rw [State.expectSemicolon, State.expectSemicolon, if_pos hlooks]
    split
    · exact (agree_passed h.reached_left.bump).mono fun _ _ => .inl
    · intro s' t' hs ht
      exact .inr ⟨h.gained _ _ s' t' hs ht, h.reached_right.bump t' ht⟩
  · refine Agree.mono ?_ fun _ _ => .inl
    refine .branch (congrArg (· == .semicolon) (h.current hne).symm) (fun _ => h.bump) fun _ => ?_
    exact (h.claim (.ok fun _ => (h.gap_ne hne).1) (.ok fun _ => (h.gap_ne hne).2)).mono fun _ _ h => h.keeps

end Abreast

theorem Keeps.expectSemicolon (h : Keeps o vs s t) (detail : String) :
    Agree (Ended o vs) (s.expectSemicolon detail) (t.expectSemicolon detail) := by
  obtain hpast | ⟨us, h⟩ := h
  · refine (agree_passed ?_).mono fun _ _ => .inl
    exact ensures_passed ((bisimulation_passed o).endSemicolon ⟨rfl, hpast⟩ detail)
  · exact h.expectSemicolon detail

theorem Abreast.endStatement (h : Abreast o us vs s t) (hnot : ¬ Sidelined o s) (form : Form)
    (hfollowing : ∀ g ∈ following, g.isIdle = true) :
    Agree (StepKeeps o vs following) (Parse.endStatement form s) (Parse.endStatement form t) := by
  have hended : Agree (StepKeeps o vs following) (done do (← s.expectSemicolon form.afterBody).closeNode)
      (done do (← t.expectSemicolon form.afterBody).closeNode) :=
    agree_done_ended ((h.expectSemicolon _).bind fun _ _ h => h.closeNode)
  by_cases hne : us = []
  · subst hne
    -- The `;` ends the statement in the second parse. The first one skips tokens if no statement ends there.
    rw [Parse.endStatement, Parse.endStatement, h.atBoundary_right, Bool.or_true, if_pos rfl]
    split
    · exact hended
    · refine agree_step_skipping ?_ hfollowing
      exact (renewed_reached o).report ((renewed_reached o).openNode h.reached_left .error) _
  · refine .branch (h.atEnd_or_atBoundary hne fun _ => hnot).symm (fun _ => hended) fun _ => ?_
    exact agree_leaving_keeps ((h.openNode hne .error).2.keeps.report rfl _) _

/-! ### Statements -/

theorem Keeps.statementBody (h : Keeps o vs s t) (form : Form) (hfollowing : ∀ g ∈ following, g.isIdle = true) :
    Agree (StepKeeps o vs following) (Parse.statementBody form s) (Parse.statementBody form t) := by
  obtain hpast | ⟨us, h⟩ := h
  · exact agree_step_of_passed ((bisimulation_passed o).statementBody ⟨rfl, hpast⟩ form)
  · refine h.branch (f := KindSet.exprFirst.contains) (by decide) (fun _ _ => ?_) (fun hreached _ => ?_) fun hnone => ?_
    · exact h.agree_step _
    · exact agree_step_astray (.ok (.inr ⟨hreached, .inl rfl⟩))
    · have hsync : Agree (StepKeeps o vs following)
          (leaving [.endStatement form] (s.report .expectedExpression form.afterOpening))
          (leaving [.endStatement form] (t.report .expectedExpression form.afterOpening)) :=
        agree_leaving_keeps (h.keeps.report rfl _) _
      by_cases hne : us = []
      · subst hne
        -- As at the end of a statement.
        rw [h.atBoundary_right, Bool.or_true, if_pos rfl]
        split
        · exact hsync
        · refine agree_step_skipping ?_ hfollowing
          exact (watched_reached o o).report ((renewed_reached o).openNode h.reached_left .error) rfl _
      · refine .branch (h.atEnd_or_atBoundary hne fun hid => ?_).symm (fun _ => hsync) fun _ => ?_
        · rw [hid] at hnone
          cases hnone
        · exact agree_leaving_keeps ((h.openNode hne .error).2.keeps.report rfl _) _

namespace Abreast

theorem definition (h : Abreast o us vs s t) (hne : us ≠ []) (hfollowing : ∀ g ∈ following, g.isIdle = true) :
    Agree (StepKeeps o vs following) (Parse.definition s) (Parse.definition t) := by
  refine ((h.openNode hne .varDef).2.keeps.skipOne (by decide)).bind fun _ _ h => ?_
  refine (h.expect (by decide) rfl _).bind fun _ _ h => (h.expect (by decide) rfl _).bind fun _ _ h => ?_
  exact h.statementBody .definition hfollowing

theorem returnStatement (h : Abreast o us vs s t) (hne : us ≠ []) (hfollowing : ∀ g ∈ following, g.isIdle = true) :
    Agree (StepKeeps o vs following) (Parse.returnStatement s) (Parse.returnStatement t) :=
  .check ((h.openNode hne .returnStmt).2.bump.bind fun _ _ h => h.statementBody .returned hfollowing)

theorem recovery (h : Abreast o us vs s t) (hne : us ≠ []) (message : String) :
    Agree (StepKeeps o vs following) (Parse.recovery message s) (Parse.recovery message t) :=
  ((h.openNode hne .error).2.keeps.report rfl message).bind fun _ _ h => agree_leaving_keeps h.bump _

end Abreast

theorem Keeps.importPath (h : Keeps o vs s t) : Agree (Keeps o vs) (Parse.importPath s) (Parse.importPath t) := by
  obtain hpast | ⟨us, h⟩ := h
  · exact agree_passed (ensures_passed ((bisimulation_passed o).importPath ⟨rfl, hpast⟩))
  · unfold Parse.importPath
    by_cases hne : us = []
    · subst hne
      -- The second parse reports the `;`; a path in the first one is consumed.
      rw [h.current_right]
      split
      · exact agree_passed h.reached_left.string
      · exact agree_passed h.reached_left.string
      · exact agree_passed h.reached_left.unterminatedString
      · exact h.keeps.report rfl _
    · rw [h.current hne]
      split
      · exact h.string hne
      · exact h.string hne
      · exact h.unterminatedString hne
      · exact h.keeps.report rfl _

theorem Abreast.importStatement (h : Abreast o us vs s t) (hne : us ≠ []) :
    Agree (Ended o vs) (Parse.importStatement s) (Parse.importStatement t) := by
  refine .check ((h.openNode hne .importStmt).2.bump.bind fun _ _ h => h.importPath.bind fun _ _ h => ?_)
  refine (h.expect (by decide) rfl _).bind fun _ _ h => (h.expect (by decide) rfl _).bind fun _ _ h => ?_
  exact (h.expectSemicolon _).bind fun _ _ h => h.closeNode

/-! ### Functions -/

/-- What comes behind the name of a function. -/
def parameterList (s : State) : Step :=
  if s.looksAt .bracketOpen then do
    let s ← s.openDelimiter .bracketOpen
    if s.looksAt .bracketClose then leaving [.functionBody] (endParameters s)
    else return ([.parameters, .functionBody], s)
  else do
    let s ← s.report .unexpectedToken "expected `[` to open parameter list"
    leaving [.functionBody] s.closeNode

theorem functionStatement_eq (s : State) :
    functionStatement s = (do
      (s.openNode .funcDef).requireCurrent .kwFunc
      parameterList (← openParameters (← (s.openNode .funcDef).bump))) := rfl

namespace State.Reached

theorem endParameters (h : s.Reached o (o + 1)) : Ensures (Parse.endParameters s) (Reached o (o + 1)) :=
  ensures_passed ((bisimulation_passed o).endParameters ⟨rfl, h⟩)

/-- The first parameter, or the end of the parameters. -/
theorem firstParameter (h : s.Reached o (o + 1)) :
    Ensures (if s.looksAt .bracketClose then leaving [.functionBody] (Parse.endParameters s)
      else .ok ([.parameters, .functionBody], s)) fun a => a.2.Reached o (o + 1) := by
  split
  · exact h.endParameters.map fun _ ht => ht
  · exact .ok h

/-- A parameter list is behind the place, and without one only the body is left to look for. -/
theorem parameterList (h : s.Reached o o) (hfollowing : ∀ g ∈ following, g.isIdle = true) :
    Ensures (Parse.parameterList s) fun a => Astray o (a.1 ++ following) a.2 := by
  unfold Parse.parameterList
  split
  · exact ((h.openDelimiter _).bind fun _ ht => ht.firstParameter).mono fun _ ha => .inl ha.sidelined
  · refine ((renewed_reached o).report h _).bind fun _ ht => ((renewed_reached o).closeNode ht).map fun _ hu => ?_
    exact .inr ⟨hu, .inr (List.forall_mem_cons.mpr ⟨rfl, hfollowing⟩)⟩

theorem openParameters (h : s.Reached o o) : Ensures (Parse.openParameters s) (Reached o o) := by
  unfold Parse.openParameters
  split
  · exact h.bump.map fun _ ht => (ht.mono (Nat.le_succ o)).congr rfl
  · exact ((watched_reached o o).report h rfl _).map fun _ ht => (renewed_reached o).openNode ht .params

end State.Reached

theorem Keeps.parameterList (h : Keeps o vs s t) (hfollowing : ∀ g ∈ following, g.isIdle = true) :
    Agree (StepKeeps o vs following) (Parse.parameterList s) (Parse.parameterList t) := by
  obtain hpast | ⟨us, h⟩ := h
  · exact agree_step_astray ((hpast.mono (Nat.le_succ o)).parameterList hfollowing)
  · refine h.branch (f := (· == .bracketOpen)) rfl (fun _ _ => ?_) (fun hreached _ => agree_step_passed ?_) fun _ => ?_
    · refine (h.keeps.openDelimiter _).bind fun u v huv => ?_
      obtain hpast | ⟨us, h⟩ := huv
      · exact agree_step_passed hpast.firstParameter
      · refine h.branch (f := (· == .bracketClose)) rfl (fun _ _ => ?_) (fun hreached hlooks => agree_step_passed ?_)
          fun _ => h.agree_step _
        · exact agree_leaving_keeps (h.keeps.closeDelimited (by decide) _) _
        · refine Ensures.map (p := Reached o (o + 1)) ?_ fun _ ht => ht
          exact (hreached.closeDelimiter_of_looksAt hlooks _).bind fun _ ht => (watched_passed o).closeNode ht
    · exact (hreached.openDelimiter _).bind fun _ ht => ht.firstParameter
    · exact (h.keeps.report rfl _).bind fun _ _ h => agree_leaving_keeps h.closeNode _

namespace Abreast

theorem openParameters (h : Abreast o us vs s t) (hne : us ≠ []) :
    Agree (Keeps o vs) (Parse.openParameters s) (Parse.openParameters t) := by
  refine .branch (congrArg (· == .id) (h.current hne).symm) (fun _ => ?_) fun _ => ?_
  · exact h.bump.map fun _ _ h => h.openTight _
  · exact (h.report rfl _).map fun _ _ h => (h.openNode hne .params).2.keeps

/-- If the keyword ends at the place, the first parse consumes the name or the parameter list behind it, or it is left
with the body. -/
theorem functionStatement (h : Abreast o us vs s t) (hne : us ≠ []) (hfollowing : ∀ g ∈ following, g.isIdle = true) :
    Agree (StepKeeps o vs following) (Parse.functionStatement s) (Parse.functionStatement t) := by
  rw [functionStatement_eq, functionStatement_eq]
  refine .check ((h.openNode hne .funcDef).2.bump.bind fun u v huv => ?_)
  have hastray (hreached : u.Reached o o) : Agree (StepKeeps o vs following)
      (do Parse.parameterList (← Parse.openParameters u)) (do Parse.parameterList (← Parse.openParameters v)) :=
    agree_step_astray (hreached.openParameters.bind fun _ ht => ht.parameterList hfollowing)
  obtain hpast | ⟨us, h⟩ := huv
  · exact hastray (hpast.mono (Nat.le_succ o))
  · by_cases hne : us = []
    · subst hne
      exact hastray h.reached_left
    · exact (h.openParameters hne).bind fun _ _ h => h.parameterList hfollowing

theorem parameters (h : Abreast o us vs s t) :
    Agree (StepKeeps o vs following) (Parse.parameters s) (Parse.parameters t) := by
  refine (h.keeps.expect (by decide) rfl _).bind fun u v huv => ?_
  obtain hpast | ⟨us, h⟩ := huv
  · refine agree_step_passed ?_
    split
    · exact ((watched_passed o).bump hpast).map fun _ ht => ht
    · exact hpast.endParameters.map fun _ ht => ht
  · refine h.branch (f := (· == .comma)) rfl (fun _ _ => ?_) (fun hreached _ => agree_step_passed ?_) fun _ => ?_
    · exact agree_leaving_keeps h.bump _
    · exact hreached.bump.map fun _ ht => ht
    · exact agree_done_keeps (h.keeps.closeDelimited (by decide) _)

theorem functionBody (h : Abreast o us vs s t) (hne : us ≠ []) :
    Agree (StepKeeps o vs following) (Parse.functionBody s) (Parse.functionBody t) := by
  refine .branch (congrArg (· == .braceOpen) (h.current hne).symm) (fun _ => ?_) fun _ => agree_done_keeps ?_
  · exact agree_leaving_keeps (h.keeps.openDelimiter _) _
  · exact (h.keeps.report rfl _).bind fun _ _ h => h.closeNode

/-! ### Steps -/

theorem statement (h : Abreast o us vs s t) (hne : us ≠ []) (hfollowing : ∀ g ∈ following, g.isIdle = true) :
    Agree (StepKeeps o vs following) (Parse.statement s) (Parse.statement t) := by
  unfold Parse.statement
  rw [h.current hne]
  split
  · exact h.definition hne hfollowing
  · exact h.definition hne hfollowing
  · exact agree_done_ended (h.importStatement hne)
  · exact h.functionStatement hne hfollowing
  · exact h.returnStatement hne hfollowing
  · exact h.recovery hne _

theorem isStopped (h : Abreast o us vs s t) : s.isStopped = false ∧ t.isStopped = false := by
  rw [State.isStopped, State.isStopped, h.left.2, h.right.2]
  exact ⟨rfl, rfl⟩

theorem statements (h : Abreast o us vs s t) (hne : us ≠ []) (inBody : Bool)
    (hfollowing : ∀ g ∈ following, g.isIdle = true) :
    Agree (StepKeeps o vs following) (Parse.statements inBody s) (Parse.statements inBody t) := by
  have hidle : ∀ g ∈ [.statements inBody] ++ following, g.isIdle = true := List.forall_mem_cons.mpr ⟨rfl, hfollowing⟩
  unfold Parse.statements
  rw [h.isStopped.1, h.isStopped.2, (h.atEnd hne).1, (h.atEnd hne).2, h.current hne]
  refine .ite Iff.rfl (h.agree_step _) ?_
  refine Agree.map (R := StepKeeps o vs ([.statements inBody] ++ following)) ?_ fun _ _ h => h.append
  exact .ite Iff.rfl (h.recovery hne _) (h.statement hne hidle)

theorem skip (h : Abreast o us vs s t) (hne : us ≠ []) (hnot : ¬ Sidelined o s) :
    Agree (StepKeeps o vs following) (Parse.skip s) (Parse.skip t) := by
  unfold Parse.skip
  rw [h.isStopped.1, h.isStopped.2, (h.atEnd hne).1, (h.atEnd hne).2, h.atBoundary hne fun _ => hnot]
  exact .ite Iff.rfl (h.agree_step _) (agree_leaving_keeps h.bump _)

theorem skipSemicolon (h : Abreast o us vs s t) (hne : us ≠ []) :
    Agree (Keeps o vs) (s.skipOne .semicolon) (t.skipOne .semicolon) :=
  .branch (congrArg (· == .semicolon) (h.current hne).symm) (fun _ => h.bump) fun _ => .ok h.keeps

theorem expression (h : Abreast o us vs s t) (hne : us ≠ []) (hfirst : s.looksAtAny .exprFirst = true) :
    Agree (StepKeeps o vs following) (Parse.expression s) (Parse.expression t) := by
  have hleft : s.limits.allowsDepth s.depth = true := by
    rw [h.left.1]
    rfl
  have hright : t.limits.allowsDepth t.depth = true := by
    rw [h.right.1]
    rfl
  rw [Parse.expression, Parse.expression, if_pos hleft, if_pos hright]
  refine h.descend.operand hne ?_ _ _
  rw [State.looksAtAny, current_of_rest s.rest_descend]
  exact hfirst

/-- Where the first parse has not gone astray, the goals that are not read at the place are read in front of it. -/
theorem act {g : Goal} {goals : List Goal} (h : Abreast o us vs s t) (hordered : Ordered (g :: goals))
    (hentering : Entering (g :: goals) s) (hnot : ¬ Astray o (g :: goals) s) :
    Agree (StepKeeps o vs goals) (Parse.act g s) (Parse.act g t) := by
  have hsidelined : ¬ Sidelined o s := fun h => hnot (.inl h)
  have hidle (hg : g.isInner = false) : ∀ g ∈ goals, g.isIdle = true := fun g' hg' =>
    isIdle_of_isTolerant (hordered.tolerant hg g' hg')
  have hbefore (hg : g.isIdle = true) (hinner : g.isInner = false) : us ≠ [] := by
    rintro rfl
    exact hnot (.inr ⟨h.reached_left, .inr (List.forall_mem_cons.mpr ⟨hg, hidle hinner⟩)⟩)
  cases g with
  | statements inBody => exact h.statements (hbefore rfl rfl) inBody (hidle rfl)
  | parameters => exact h.parameters
  | functionBody => exact h.functionBody (hbefore rfl rfl)
  | endBody => exact agree_done_keeps (h.keeps.closeDelimited (by decide) _)
  | skip => exact h.skip (hbefore rfl rfl) hsidelined
  | endRecovery => exact agree_done_keeps ((h.skipSemicolon (hbefore rfl rfl)).bind fun _ _ h => h.closeNode)
  | endSkipped =>
      refine agree_done_keeps (h.closeNode.bind fun _ _ h => ?_)
      exact (h.skipSemicolon (hbefore rfl rfl)).bind fun _ _ h => h.closeNode
  | endStatement form => exact h.endStatement hsidelined form (hidle rfl)
  | expression =>
      refine h.expression ?_ (hentering.1 rfl)
      rintro rfl
      exact hnot (.inr ⟨h.reached_left, .inl rfl⟩)
  | leaveExpression => exact h.ascend.agree_step _
  | suffixOf strength => exact h.suffixStep hsidelined strength
  | endOutput => exact agree_done_keeps h.keeps.closeNode
  | arguments => exact h.moreArguments
  | endGroup => exact agree_done_keeps (h.keeps.closeDelimited (by decide) _)

/-- If the first run reports a `;` missing at the place, then the second one consumes the `;` there. -/
theorem run {origin : State} {goals : List Goal} (h : Abreast o us vs s t) (hsettled : Settled origin goals s)
    (hentering : Entering goals s) :
    Agree (fun s' t' => ¬ s'.Misses (· ≠ o) → Gained s' t' ∧ t'.Misses (· ≠ o)) (Parse.run goals s)
      (Parse.run goals t) := by
  fun_induction Parse.run goals s generalizing us t with
  | case1 s =>
      rw [Parse.run]
      exact .ok fun hmissing => absurd h.quiet_left.unreported hmissing
  | case2 g goals s fault hact =>
      intro s' t' hs
      cases hs
  | case3 g goals s new u hact ih =>
      intro s' t' hs ht hmissing
      have hsettled' := hsettled.act.of_eq_ok hact
      have hentering' := hentering.act (new, u) hact
      have hunlimited := (hsettled.rebase.act.of_eq_ok hact).fits.reached.unlimited h.left
      have hreported : ¬ Astray o (new ++ goals) u := fun hastray =>
        hmissing (hastray.run hsettled' hunlimited hentering' s' hs)
      have hnot : ¬ Astray o (g :: goals) s := fun hastray =>
        hreported (hastray.act h.left hentering (new, u) hact)
      obtain ⟨new', v, hact', hrest⟩ := run_cons_eq_ok ht
      obtain hastray | ⟨hgoals, hstates⟩ :=
        h.act hsettled.ordered hentering hnot (new, u) (new', v) hact hact'
      · exact absurd hastray hreported
      · dsimp only at hgoals hstates
        subst hgoals
        obtain ⟨us', h'⟩ | ⟨hgained, hpast⟩ := hstates
        · exact ih h' hsettled' hentering' s' t' hs hrest hmissing
        · refine ⟨bisimulation_gained.run hgained hentering' s' t' hs hrest, ?_⟩
          have hright : Entering (new ++ goals) v := by
            refine ⟨fun hhead => ?_, hentering'.2⟩
            rw [State.looksAtAny, current_of_rest hgained.rest_eq]
            exact hentering'.1 hhead
          exact (ensures_passed ((bisimulation_passed o).run ⟨rfl, hpast⟩ hright) t' hrest).unreported

end Abreast

theorem abreast_start {before after : List Token} (hwidth : ∀ token ∈ before ++ after, 0 < token.width)
    (hne : before ≠ []) (hlast : Token.EndsSignificant before) :
    Abreast (Token.totalWidth before) before after (.start .none (before ++ after))
      (.start .none (before ++ .semicolon :: after)) := by
  have hwidth' : ∀ token ∈ before ++ .semicolon :: after, 0 < token.width := by
    obtain ⟨hbefore, hafter⟩ := List.forall_mem_append.mp hwidth
    exact List.forall_mem_append.mpr ⟨hbefore, List.forall_mem_cons.mpr ⟨by decide, hafter⟩⟩
  have hquiet {tokens : List Token} (hwidth : ∀ token ∈ tokens, 0 < token.width) :
      (start .none tokens).Reached (Token.totalWidth before) 0 :=
    ⟨standing_start .none hwidth, List.forall_mem_nil _, Nat.zero_le _⟩
  exact {
    rest_left := rfl
    rest_right := rfl
    offset_eq := rfl
    lastEnd_eq := rfl
    top_eq := rfl
    below_eq := rfl
    delimiters_eq := rfl
    left := ⟨rfl, rfl⟩
    right := ⟨rfl, rfl⟩
    quiet_left := hquiet hwidth
    quiet_right := hquiet hwidth'
    offset_add := Nat.zero_add _
    significant := hlast
    here := fun hnil => absurd hnil hne }

theorem Gained.children (h : Gained s t) (hs : s.below = []) (ht : t.below = []) :
    Tree.Gains s.flush.top.children.reverse t.flush.top.children.reverse := by
  have hframes := h.flush.frames
  rw [show s.flush.below = [] from hs, show t.flush.below = [] from ht] at hframes
  exact hframes.last

theorem ofTokens_insert {before after : List Token} (hleft : Paired (before ++ after))
    (hright : Paired (before ++ .semicolon :: after)) (hwidth : ∀ token ∈ before ++ after, 0 < token.width)
    (hne : before ≠ []) (hlast : Token.EndsSignificant before) {p : Parsed}
    (hp : ofTokens .none (before ++ after) = .ok p) {d : Diagnostic} (hd : d ∈ p.diagnostics)
    (hissue : d.issue = .expectedSemicolon) (hstart : d.span.start = Token.totalWidth before) :
    ∃ q, ofTokens .none (before ++ .semicolon :: after) = .ok q ∧
      (∀ e ∈ q.diagnostics, e.issue = .expectedSemicolon → e.span.start ≠ d.span.start) ∧
      Tree.Gains p.root.children q.root.children := by
  obtain ⟨s, hs, -, hbelow, ⟨e, hnone, -⟩ | ⟨-, -, hp'⟩⟩ := ofTokens_eq .none hleft
  · exact absurd rfl hnone
  obtain ⟨t, ht, -, hbelow', ⟨e, hnone, -⟩ | ⟨-, -, hq⟩⟩ := ofTokens_eq .none hright
  · exact absurd rfl hnone
  rw [hp'] at hp
  cases hp
  have hmissing : ¬ s.Misses (· ≠ Token.totalWidth before) := fun hmisses =>
    hmisses d (List.mem_reverse.mp hd) hissue hstart
  obtain ⟨hgained, hmisses⟩ :=
    (abreast_start hwidth hne hlast).run (Settled.start .none hleft) (entering_start _) s t hs ht hmissing
  refine ⟨_, hq, fun e he => ?_, hgained.children hbelow hbelow'⟩
  rw [hstart]
  exact hmisses e (List.mem_reverse.mp he)

end Parse

theorem Token.ofList_charsOf (ts : List Token) : String.ofList (charsOf ts) = joined ts := by
  rw [← String.toList_inj, String.toList_ofList, joined, String.toList_join, List.flatMap_map]
  rfl

/-- The fix for a missing `;` is right: with the `;` added where it was reported missing, none is reported missing there
any more, and nothing else changes in the tree. -/
theorem added_semicolon_completes {source : String} (hstrings : ∀ t ∈ lex source, t.kind ≠ .unterminatedStr)
    {p : Parse.Parsed} (hparse : parse .none source = .ok p) {d : Diagnostic} (hd : d ∈ p.diagnostics)
    (hissue : d.issue = .expectedSemicolon) :
    ∃ before after q, source = before ++ after ∧ before.utf8ByteSize = d.span.start ∧
      parse .none (before ++ ";" ++ after) = .ok q ∧
      (∀ e ∈ q.diagnostics, e.issue = .expectedSemicolon → e.span.start ≠ d.span.start) ∧
      Tree.Gains p.root.children q.root.children := by
  obtain ⟨before, after, hlex, hwidth, hne, hlast, hafter⟩ := Parse.cutAt_of_parse hparse hd hissue
  have hsource : source = Token.joined before ++ Token.joined after := by
    rw [Token.joined, Token.joined, ← String.join_append, ← List.map_append, ← hlex, join_text_lex]
  have hinserted := lex_insert_semicolon hlex hafter hlast fun t ht => hstrings t (hlex ▸ List.mem_append_left after ht)
  rw [Token.ofList_charsOf, Token.ofList_charsOf] at hinserted
  have hwidths : ∀ token ∈ before ++ after, 0 < token.width := fun token htoken =>
    Token.width_pos ((lexed_lex source).genuine (hlex ▸ htoken)).text_ne
  rw [parse, hlex] at hparse
  obtain ⟨q, hq, hmisses, hgains⟩ := Parse.ofTokens_insert (hlex ▸ paired_lex source)
    (hinserted ▸ paired_lex _) hwidths hne hlast hparse hd hissue hwidth.symm
  refine ⟨Token.joined before, Token.joined after, q, hsource, ?_, ?_, hmisses, hgains⟩
  · rw [Token.joined, Token.utf8ByteSize_join, hwidth]
  · rw [parse, hinserted, hq]

/-- A `;` is missing behind an import, before a comment. -/
theorem added_semicolon_completes_before_comment :
    ∃ p d, (∀ t ∈ lex "import 'a' as b # c\nd = b['e'];", t.kind ≠ .unterminatedStr) ∧
      parse .none "import 'a' as b # c\nd = b['e'];" = .ok p ∧ p.diagnostics = [d] ∧
      d.issue = .expectedSemicolon ∧ d.span.start = 15 ∧
      ∃ before after q, "import 'a' as b # c\nd = b['e'];" = before ++ after ∧
        before.utf8ByteSize = d.span.start ∧ parse .none (before ++ ";" ++ after) = .ok q ∧
        (∀ e ∈ q.diagnostics, e.issue = .expectedSemicolon → e.span.start ≠ d.span.start) ∧
        Tree.Gains p.root.children q.root.children := by
  have hstrings : ∀ t ∈ lex "import 'a' as b # c\nd = b['e'];", t.kind ≠ .unterminatedStr := by
    decide +kernel
  have hparses : ((parse .none "import 'a' as b # c\nd = b['e'];").toOption.map fun p =>
      p.diagnostics.map fun d => (d.issue, d.span.start)) = some [(.expectedSemicolon, 15)] := by
    decide +kernel
  obtain ⟨p, hparse, hseen⟩ := eq_ok_of_toOption hparses
  obtain ⟨d, hdiagnostics, hd⟩ := List.map_eq_singleton_iff.mp hseen
  obtain ⟨hissue, hstart⟩ := Prod.mk.inj hd
  have hmem : d ∈ p.diagnostics := hdiagnostics ▸ List.mem_singleton_self d
  exact ⟨p, d, hstrings, hparse, hdiagnostics, hissue, hstart,
    added_semicolon_completes hstrings hparse hmem hissue⟩

end Transducer
