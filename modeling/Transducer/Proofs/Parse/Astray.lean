import Transducer.Proofs.Parse.Positions
import Transducer.Proofs.Parse.Gaps

/-!
# Parses that report no `;` at a place

A `;` is reported missing behind the last token, so none is reported at a place any more once a token behind it has been
consumed. Sometimes this is certain before: an expression is about to be read there, or only idle goals are left, which
report the next token and consume it. It is certain, too, if the place lies between a name and `=`: such a name starts a
definition, wherever it is found.
-/

namespace Transducer.Parse

open State

namespace State

variable {o n : Nat} {s t : State}

/-- No `;` has been reported missing at `o`, and the gap in front of the next token lies at `n` or behind. -/
structure Reached (o n : Nat) (s : State) : Prop where
  standing : s.Standing
  unreported : s.Misses (· ≠ o)
  le_gap : n ≤ s.gap

theorem gap_flush (s : State) : s.flush.gap = s.gap := by
  rw [State.gap, State.gap, currentSpan_flush]
  rfl

theorem Standing.congr (h : s.Standing) (heq : t.record = s.record) : t.Standing := by
  cases s
  cases t
  obtain ⟨rfl, rfl, rfl, rfl, rfl, rfl, rfl⟩ := Record.mk.inj heq
  exact ⟨h.offset_add, h.width_pos, h.lastEnd_le⟩

theorem Misses.congr {place : Nat → Prop} (h : s.Misses place) (heq : t.record = s.record) : t.Misses place := by
  have hds : t.diagnostics = s.diagnostics := congrArg Record.diagnostics heq
  rw [Misses, hds]
  exact h

theorem gap_congr (heq : t.record = s.record) : t.gap = s.gap := by
  cases s
  cases t
  obtain ⟨rfl, rfl, rfl, rfl, rfl, rfl, rfl⟩ := Record.mk.inj heq
  rfl

namespace Reached

theorem congr (h : s.Reached o n) (heq : t.record = s.record) : t.Reached o n :=
  ⟨h.standing.congr heq, h.unreported.congr heq, gap_congr heq ▸ h.le_gap⟩

theorem flush (h : s.Reached o n) : s.flush.Reached o n := ⟨h.standing.flush, h.unreported, s.gap_flush ▸ h.le_gap⟩

theorem withDelimiters (h : s.Reached o n) (ds : List Delimiter) : Reached o n { s with delimiters := ds } :=
  ⟨h.standing.withDelimiters ds, h.unreported, h.le_gap⟩

theorem bump (h : s.Reached o n) : Ensures s.bump (Reached o (n + 1)) := by
  intro t ht
  obtain ⟨hstanding, hlt⟩ := h.standing.bump ht
  have hmisses : t.Misses (· ≠ o) := by
    obtain ⟨token, ts, -, rfl⟩ := bump_eq_ok ht
    exact h.unreported
  exact ⟨hstanding, hmisses, Nat.lt_of_le_of_lt (Nat.le_trans h.le_gap h.standing.gap_le) hlt⟩

theorem mono {m : Nat} (h : s.Reached o n) (hle : m ≤ n) : s.Reached o m :=
  ⟨h.standing, h.unreported, Nat.le_trans hle h.le_gap⟩

theorem claim (h : s.Reached o n) {position : Nat} {r : Except Fault Diagnostic}
    (hr : Ensures r fun d => d.issue = .expectedSemicolon → d.span.start ≠ o) :
    Ensures (s.claim position r) (Reached o n) := by
  intro t ht
  obtain ⟨rfl, -⟩ | ⟨d, hd, -, rfl⟩ := claim_eq_ok ht
  · exact h
  · exact ⟨⟨h.standing.offset_add, h.standing.width_pos, h.standing.lastEnd_le⟩,
      List.forall_mem_cons.mpr ⟨hr d hd, h.unreported⟩, h.le_gap⟩

end Reached

theorem ClaimsNext.not_gap {d : Diagnostic} (h : s.ClaimsNext d) :
    d.issue = .expectedSemicolon → d.span.start ≠ o :=
  fun hissue => absurd hissue (Issue.ne_expectedSemicolon_of_isAtNext h.issue)

theorem ClaimsGap.start_eq {d : Diagnostic} (h : s.ClaimsGap d) : d.span.start = s.gap := by
  rw [h.span]
  rfl

end State

/-- At the place nothing is certain yet, behind it everything is. -/
theorem renewed_reached (o : Nat) : Renewed (Reached o o) (Reached o (o + 1)) (Reached o (o + 1)) where
  congr h heq := h.congr heq
  congrEnded h heq := h.congr heq
  ended h := h
  flush h := h.flush
  bump h := h.bump.mono fun _ ht => ht.mono (Nat.le_succ _)
  remember h _ := h.withDelimiters _
  forget h _ _ := h.withDelimiters _
  claimNext h _ _ _ hr := (h.withDelimiters _).claim (hr.mono fun _ hd => hd.not_gap)
  claimGap h _ hd := by
    refine h.claim (.ok fun _ => ?_)
    rw [hd.start_eq]
    exact Nat.ne_of_gt h.le_gap
  congrIdle h heq := h.congr heq
  flushIdle h := h.flush
  withDelimiters h _ := h.withDelimiters _
  claimAgain h _ hr := h.claim (hr.mono fun _ hd hissue => absurd hissue (ne_expectedSemicolon_of_again hd))
  renew h := h.bump
  idle h := h.mono (Nat.le_succ o)

theorem watched_reached (o n : Nat) : Watched (Reached o n) (fun _ => True) where
  congr h heq := h.congr heq
  congrEnded _ _ := trivial
  ended _ := trivial
  flush h := h.flush
  bump h := h.bump.mono fun _ ht => ht.mono (Nat.le_succ _)
  remember h _ := h.withDelimiters _
  forget h _ _ := h.withDelimiters _
  claimNext h _ _ _ hr := (h.withDelimiters _).claim (hr.mono fun _ hd => hd.not_gap)
  claimGap _ _ _ _ _ := trivial

variable {o : Nat} {s : State} {goals : List Goal}

/-! ### Expressions -/

theorem bisimulation_passed (o : Nat) :
    Bisimulation (fun s t => s = t ∧ s.Reached o (o + 1)) (fun s t => s = t ∧ s.Reached o (o + 1)) :=
  (renewed_reached o).bisimulation

theorem watched_passed (o : Nat) : Watched (Reached o (o + 1)) (Reached o (o + 1)) := (renewed_reached o).toWatched

theorem ensures_passed {r : Except Fault State} (h : Agree (fun s t => s = t ∧ s.Reached o (o + 1)) r r) :
    Ensures r (Reached o (o + 1)) :=
  fun a ha => (h a a ha ha).2

theorem current_of_exprFirst (h : s.looksAtAny .exprFirst = true) :
    s.current = .id ∨ s.current = .doubleQuote ∨ s.current = .singleQuote ∨ s.current = .unterminatedStr ∨
      s.current = .parenOpen := by
  simpa [State.looksAtAny, KindSet.contains, KindSet.exprFirst] using h

namespace State.Reached

/-- The first argument of a call, or the end of the arguments. -/
theorem firstArgument (h : s.Reached o (o + 1)) :
    Ensures (if s.looksAt .bracketClose then done (endArguments s) else nestedExpression s "[" .arguments)
      fun a => a.2.Reached o (o + 1) := by
  split
  · exact Watched.ensures_of_agree (agree_done ((bisimulation_passed o).endArguments ⟨rfl, h⟩))
  · exact Watched.ensures_of_agree ((bisimulation_passed o).nestedExpression ⟨rfl, h⟩ "[" rfl)

theorem openDelimiter (h : s.Reached o o) (k : Kind) : Ensures (s.openDelimiter k) (Reached o (o + 1)) :=
  .after fun _ => (h.withDelimiters _).bump

theorem callArguments (h : s.Reached o o) :
    Ensures (do
      let s ← (s.openTight (some .args)).openDelimiter .bracketOpen
      if s.looksAt .bracketClose then done (endArguments s) else nestedExpression s "[" .arguments)
      fun a => a.2.Reached o (o + 1) :=
  ((h.congr rfl : (s.openTight (some .args)).Reached o o).openDelimiter _).bind fun _ ht => ht.firstArgument

theorem call (h : s.Reached o o) : Ensures (Parse.call s) fun a => a.2.Reached o (o + 1) :=
  ((renewed_reached o).renew ((renewed_reached o).openNode h .call)).bind fun _ ht =>
    (ht.mono (Nat.le_succ o)).callArguments

theorem bump_to {n : Nat} (h : s.Reached o n) : Ensures s.bump (Reached o s.currentSpan.stop) := by
  intro t ht
  refine ⟨(h.bump t ht).standing, (h.bump t ht).unreported, ?_⟩
  obtain ⟨token, ts, hahead, rfl⟩ := bump_eq_ok ht
  simp only [State.gap, State.currentSpan, hahead]
  exact Nat.le_refl _

theorem call_of_stop (h : s.Reached o 0) (hstop : s.currentSpan.stop = o) :
    Ensures (Parse.call s) fun a => a.2.Reached o (o + 1) := by
  have hopened : (s.openNode .call).Reached o 0 := h.flush.congr rfl
  have hspan : (s.openNode .call).currentSpan.stop = o := by
    rw [← hstop]
    exact congrArg Span.stop s.currentSpan_flush
  refine hopened.bump_to.bind fun t ht => callArguments ?_
  rwa [hspan] at ht

theorem closeDelimiter_of_looksAt (h : s.Reached o o) {closer : Kind} (hlooks : s.looksAt closer = true)
    (construct : String) : Ensures (s.closeDelimiter closer construct) (Reached o (o + 1)) := by
  unfold State.closeDelimiter State.skipOne
  split
  · rw [if_pos hlooks]
    exact h.bump
  · rename_i opener openers _
    have hforgot : ({ s with delimiters := openers } : State).looksAt closer = true := hlooks
    dsimp only
    rw [if_pos hforgot]
    split
    · exact (h.withDelimiters openers).bump
    · exact .error

theorem string (h : s.Reached o o) : Ensures (Parse.string s) (Reached o (o + 1)) := by
  have hpassed := watched_passed o
  refine ((renewed_reached o).renew ((renewed_reached o).openNode h .str)).bind fun t ht => ?_
  refine (hpassed.skipOne ht _).bind fun u hu => .after fun _ => ?_
  exact (hpassed.bump hu).bind fun _ hv => hpassed.closeNode hv

theorem leafNode (h : s.Reached o o) (kind : Kind) :
    Ensures (do (← (s.openNode kind).bump).closeNode) (Reached o (o + 1)) :=
  ((renewed_reached o).renew ((renewed_reached o).openNode h kind)).bind fun _ ht =>
    (watched_passed o).closeNode ht

theorem unterminatedString (h : s.Reached o o) : Ensures s.unterminatedString (Reached o (o + 1)) :=
  ((watched_reached o o).claim h (claimsNext_unterminated _)).bind fun _ ht => ht.leafNode .error

theorem group (h : s.Reached o o) : Ensures (Parse.group s) fun a => a.2.Reached o (o + 1) := by
  refine (((renewed_reached o).openNode h .nested).openDelimiter _).bind fun t ht => ?_
  exact Watched.ensures_of_agree ((bisimulation_passed o).nestedExpression ⟨rfl, ht⟩ "(" rfl)

theorem atom (h : s.Reached o o) (hfirst : s.looksAtAny .exprFirst = true) :
    Ensures (Parse.atom s) fun a => a.2.Reached o (o + 1) := by
  have hdone {r : Except Fault State} (hr : Ensures r (Reached o (o + 1))) :
      Ensures (done r) fun a => a.2.Reached o (o + 1) := hr.map fun _ ht => ht
  obtain hk | hk | hk | hk | hk := current_of_exprFirst hfirst
  all_goals simp only [Parse.atom, hk]
  · split
    · exact h.call
    · exact hdone (h.leafNode .ref)
  · exact hdone h.string
  · exact hdone h.string
  · exact hdone h.unterminatedString
  · exact h.group

theorem marks (h : s.Reached o o) (strengths : List Strength) :
    (strengths.foldl (fun s _ => s.mark) s).Reached o o := by
  induction strengths generalizing s with
  | nil => exact h
  | cons strength strengths ih => exact ih (s := s.mark) (h.flush.congr rfl)

theorem operand (h : s.Reached o o) (hfirst : s.looksAtAny .exprFirst = true) (strength : Strength)
    (following : List Goal) : Ensures (Parse.operand strength following s) fun a => a.2.Reached o (o + 1) := by
  have hmarked : (strength.upTo.foldl (fun s _ => s.mark) s).looksAtAny .exprFirst = true := by
    rw [State.looksAtAny, current_congr (ahead_marks strength.upTo s)]
    exact hfirst
  exact ((h.marks strength.upTo).atom hmarked).bind fun _ ha => .ok ha

theorem expression (h : s.Reached o o) (hunlimited : s.Unlimited) (hfirst : s.looksAtAny .exprFirst = true) :
    Ensures (Parse.expression s) fun a => a.2.Reached o (o + 1) := by
  have hallowed : s.limits.allowsDepth s.depth = true := by
    rw [hunlimited.1]
    rfl
  rw [Parse.expression, if_pos hallowed]
  refine (h.congr s.record_descend).operand ?_ _ _
  rw [State.looksAtAny, current_of_rest s.rest_descend]
  exact hfirst

/-! ### Operators -/

theorem wrap (h : s.Reached o o) (kind : Kind) : (s.wrap kind).Reached o o := h.congr rfl

theorem bound (h : s.Reached o (o + 1)) : Ensures (Parse.bound s) (Reached o (o + 1)) :=
  ensures_passed ((bisimulation_passed o).bound ⟨rfl, h⟩)

theorem upperBound (h : s.Reached o (o + 1)) : Ensures (Parse.upperBound s) (Reached o (o + 1)) := by
  unfold Parse.upperBound
  split
  · exact ((watched_passed o).bump h).bind fun _ ht => ht.bound
  · exact .ok h

theorem bounds (h : s.Reached o o) : Ensures (Parse.bounds s) (Reached o (o + 1)) := by
  refine ((h.wrap .repetition).openDelimiter _).bind fun _ ht => ht.bound.bind fun _ ht => ?_
  exact ht.upperBound.bind fun _ ht => (watched_passed o).closeDelimiter ht _ _

theorem weightValue (h : s.Reached o o) : Ensures (Parse.weightValue s) (Reached o (o + 1)) := by
  have hexpect {s : State} (h : s.Reached o (o + 1)) {k : Kind} (hk : k ≠ .semicolon) {issue : Issue}
      (hissue : issue.isAtNext = true) (detail : String) : Ensures (s.expect k issue detail) (Reached o (o + 1)) :=
    ensures_passed ((bisimulation_passed o).expect ⟨rfl, h⟩ hk hissue detail)
  refine (h.wrap .weight).bump.bind fun _ ht => (hexpect ht (by decide) rfl _).bind fun _ ht => ?_
  exact hexpect ht (by decide) rfl _

/-- An operator is consumed, and then its operand is looked for. -/
theorem operatorThen (h : s.Reached o o) (node : Kind) (operator : String) (strength : Strength) {next : List Goal}
    (hnext : ∀ g ∈ next, g.isPlain = true) :
    Ensures (do Parse.operandAfter operator strength next (← (s.wrap node).bump)) fun a => a.2.Reached o (o + 1) :=
  (h.wrap node).bump.bind fun _ ht =>
    Watched.ensures_of_agree ((bisimulation_passed o).operandAfter ⟨rfl, ht⟩ operator strength hnext)

end State.Reached

/-! ### A name before `=` -/

/-- The place lies behind the name in front of the next `=`, or right in front of `=`, or behind the last token. -/
structure Sidelined (o : Nat) (s : State) : Prop where
  standing : s.Standing
  unreported : s.Misses (· ≠ o)
  passing : (s.current = .id ∧ s.currentSpan.stop = o ∧ s.isFollowedBy .equals = true) ∨
    (s.current = .equals ∧ o ≤ s.gap) ∨ o + 1 ≤ s.gap

namespace Sidelined

theorem congr {t : State} (h : Sidelined o s) (heq : t.record = s.record) : Sidelined o t := by
  refine ⟨h.standing.congr heq, h.unreported.congr heq, ?_⟩
  have hpassing := h.passing
  cases s
  cases t
  obtain ⟨rfl, rfl, rfl, rfl, rfl, rfl, rfl⟩ := Record.mk.inj heq
  exact hpassing

theorem passed (h : Sidelined o s) (hid : s.current ≠ .id) (hequals : s.current ≠ .equals) : s.Reached o (o + 1) := by
  obtain ⟨hcurrent, -⟩ | ⟨hcurrent, -⟩ | hle := h.passing
  · exact absurd hcurrent hid
  · exact absurd hcurrent hequals
  · exact ⟨h.standing, h.unreported, hle⟩

theorem flush (h : Sidelined o s) : Sidelined o s.flush := by
  have hcurrent : s.flush.current = s.current := current_congr s.ahead_flush
  have hfollowed : s.flush.isFollowedBy .equals = s.isFollowedBy .equals := by
    rw [State.isFollowedBy, State.isFollowedBy, s.ahead_flush]
  refine ⟨h.standing.flush, h.unreported, ?_⟩
  rw [hcurrent, currentSpan_flush, hfollowed, gap_flush]
  exact h.passing

theorem bump (h : Sidelined o s) : Ensures s.bump (Sidelined o) := by
  intro t ht
  obtain ⟨hstanding, hlt⟩ := h.standing.bump ht
  have hgap := h.standing.gap_le
  have hmisses : t.Misses (· ≠ o) := by
    obtain ⟨token, ts, -, rfl⟩ := bump_eq_ok ht
    exact h.unreported
  refine ⟨hstanding, hmisses, ?_⟩
  obtain ⟨hid, hstop, hfollowed⟩ | ⟨-, hle⟩ | hle := h.passing
  · obtain ⟨token, ts, hahead, rfl⟩ := bump_eq_ok ht
    refine .inr (.inl ⟨current_of_isFollowedBy hfollowed (by rw [hahead]; rfl), ?_⟩)
    have hspan : s.currentSpan.stop = s.offset + Token.totalWidth s.trivia + token.width := by
      simp only [State.currentSpan, hahead]
    rw [← hstop, hspan]
    exact Nat.le_refl _
  · exact .inr (.inr (by omega))
  · exact .inr (.inr (by omega))

theorem claim (h : Sidelined o s) (ds : List Delimiter) {position : Nat} {r : Except Fault Diagnostic}
    (hr : Ensures r fun d => d.issue = .expectedSemicolon → d.span.start ≠ o) :
    Ensures ({ s with delimiters := ds }.claim position r) (Sidelined o) := by
  intro t ht
  obtain ⟨rfl, -⟩ | ⟨d, hd, -, rfl⟩ := claim_eq_ok ht
  · exact ⟨h.standing.withDelimiters ds, h.unreported, h.passing⟩
  · exact ⟨⟨h.standing.offset_add, h.standing.width_pos, h.standing.lastEnd_le⟩,
      List.forall_mem_cons.mpr ⟨hr d hd, h.unreported⟩, h.passing⟩

end Sidelined

theorem watched_sidelined (o : Nat) : Watched (Sidelined o) (fun _ => True) where
  congr h heq := h.congr heq
  congrEnded _ _ := trivial
  ended _ := trivial
  flush h := h.flush
  bump h := h.bump
  remember h _ := ⟨h.standing.withDelimiters _, h.unreported, h.passing⟩
  forget h _ _ := ⟨h.standing.withDelimiters _, h.unreported, h.passing⟩
  claimNext h ds _ _ hr := h.claim ds (hr.mono fun _ hd => hd.not_gap)
  claimGap _ _ _ _ _ := trivial

theorem State.Reached.sidelined (h : s.Reached o (o + 1)) : Sidelined o s :=
  ⟨h.standing, h.unreported, .inr (.inr h.le_gap)⟩

theorem State.Standing.currentSpan_lt (h : s.Standing) (hend : s.atEnd = false) :
    s.currentSpan.start < s.currentSpan.stop := by
  obtain ⟨token, ts, hahead⟩ := exists_ahead_of_not_atEnd hend
  have hmem : token ∈ s.rest := (List.dropWhile_suffix Token.isTrivia).subset (show token ∈ s.ahead by simp [hahead])
  simp only [State.currentSpan, hahead]
  exact Nat.lt_add_of_pos_right (h.width_pos token hmem)

namespace Sidelined

/-- At the end of a statement a `;` is missing before the name or behind the place. -/
theorem gap_ne (h : Sidelined o s) (hboundary : (s.atEnd || s.atBoundary) = true) : s.gap ≠ o := by
  obtain ⟨hid, hstop, -⟩ | ⟨hequals, -⟩ | hle := h.passing
  · have hlt := h.standing.currentSpan_lt (atEnd_eq_false_of_current hid (by decide))
    have hgap := h.standing.gap_le
    omega
  · rw [atEnd_eq_false_of_current hequals (by decide), State.atBoundary, hequals] at hboundary
    cases hboundary
  · exact Nat.ne_of_gt hle

theorem expectSemicolon (h : Sidelined o s) (hboundary : (s.atEnd || s.atBoundary) = true) (detail : String) :
    Ensures (s.expectSemicolon detail) (Sidelined o) := by
  unfold State.expectSemicolon
  split
  · exact h.bump
  · exact h.claim s.delimiters (.ok fun _ => h.gap_ne hboundary)

theorem act {g : Goal} (h : Sidelined o s) (hentering : Entering (g :: goals) s) :
    Ensures (Parse.act g s) fun a => Sidelined o a.2 := by
  refine (watched_sidelined o).act h hentering ?_ fun form _ hboundary => h.expectSemicolon hboundary _
  intro inBody _ _ hcurrent
  have hpassed : s.Reached o (o + 1) := h.passed (by rw [hcurrent]; decide) (by rw [hcurrent]; decide)
  exact ((renewed_reached o).importStatement ((renewed_reached o).idle hpassed)).mono fun _ ht => ht.sidelined

end Sidelined

/-! ### Runs -/

/-- It is certain that no `;` will be reported missing at the place. -/
def Astray (o : Nat) (goals : List Goal) (s : State) : Prop :=
  Sidelined o s ∨ s.Reached o o ∧ (goals.head? = some .expression ∨ ∀ g ∈ goals, g.isIdle = true)

namespace Astray

theorem act {g : Goal} (h : Astray o (g :: goals) s) (hunlimited : s.Unlimited) (hentering : Entering (g :: goals) s) :
    Ensures (Parse.act g s) fun a => Astray o (a.1 ++ goals) a.2 := by
  obtain hsidelined | ⟨hreached, hfirst | hidle⟩ := h
  · exact (hsidelined.act hentering).mono fun _ ha => .inl ha
  · cases hfirst
    exact (hreached.expression hunlimited (hentering.1 rfl)).mono fun _ ha => .inl ha.sidelined
  · obtain ⟨hg, hgoals⟩ := List.forall_mem_cons.mp hidle
    refine ((renewed_reached o).act_idle hreached hg fun _ _ _ _ => ?_).mono fun a ha => ?_
    · exact ((renewed_reached o).importStatement hreached).mono fun _ => (renewed_reached o).idle
    · obtain hpassed | ⟨ha, hnew⟩ := ha
      · exact .inl hpassed.sidelined
      · refine .inr ⟨ha, .inr (List.forall_mem_append.mpr ⟨fun g hg => ?_, hgoals⟩)⟩
        exact isIdle_of_isTolerant (hnew g hg)

/-- A run that went astray reports no missing `;` at the place. -/
theorem run {origin : State} (h : Astray o goals s) (hsettled : Settled origin goals s) (hunlimited : s.Unlimited)
    (hentering : Entering goals s) : Ensures (Parse.run goals s) (Misses (· ≠ o)) := by
  fun_induction Parse.run goals s with
  | case1 s => exact .ok (h.elim Sidelined.unreported fun h => h.1.unreported)
  | case2 g goals s fault hact => exact .error
  | case3 g goals s new t hact ih =>
      have hsettled' := hsettled.rebase.act.of_eq_ok hact
      exact ih (h.act hunlimited hentering (new, t) hact) (hsettled.act.of_eq_ok hact)
        (hsettled'.fits.reached.unlimited hunlimited) (hentering.act (new, t) hact)

end Astray

end Transducer.Parse
