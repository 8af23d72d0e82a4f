import Transducer.Proofs.Parse.Events
import Transducer.Proofs.Parse.Totality

/-!
# Limits are exact

A parse with limits does what the parse without limits does until an event is not allowed. Which limit is hit first can
be told from the journal: the two states differ in nothing else. From then on only the first limit hit counts, and it
stays what it is, since a journal only grows.
-/

namespace Transducer

/-! ### The first limit hit -/

/-- The limit that an event hits after the events `before`. -/
def Limits.hitBy (l : Limits) (before : List Event) : Event → Option LimitError
  | .consumed _ => if l.allowsToken (Event.tokensOf before).length then .none else some .tokens
  | .entered active => if l.allowsDepth active then .none else some .depth

/-- The first limit that the events of a journal hit. The journal has the last event first. -/
def Limits.firstHit (l : Limits) : List Event → Option LimitError
  | [] => .none
  | event :: before => (l.firstHit before).or (l.hitBy before event)

/-- Every expression is entered inside as many others as were entered before it. The last event comes first. -/
def Event.Nested : List Event → Prop
  | [] => True
  | .consumed _ :: before => Nested before
  | .entered active :: before => (∀ outer < active, .entered outer ∈ before) ∧ Nested before

/-- At most `tokens` tokens are consumed, and every expression is entered inside fewer than `depth` others. -/
def Event.Within (tokens depth : Nat) (events : List Event) : Prop :=
  (tokensOf events).length ≤ tokens ∧ ∀ active, .entered active ∈ events → active < depth

namespace Event

theorem tokensOf_reverse (events : List Event) : tokensOf events.reverse = (tokensOf events).reverse :=
  List.filterMap_reverse

theorem within_reverse {tokens depth : Nat} {events : List Event} :
    Within tokens depth events.reverse ↔ Within tokens depth events := by
  simp only [Within, tokensOf_reverse, List.length_reverse, List.mem_reverse]

theorem Nested.of_append {after before : List Event} (h : Nested (after ++ before)) : Nested before := by
  induction after with
  | nil => exact h
  | cons event after ih =>
      cases event with
      | consumed token => exact ih h
      | entered active => exact ih h.2

end Event

namespace Limits

open Event

variable {l : Limits} {tokens depth : Nat}

theorem firstHit_append {after before : List Event} {e : LimitError} (h : l.firstHit before = some e) :
    l.firstHit (after ++ before) = some e := by
  induction after with
  | nil => exact h
  | cons event after ih =>
      rw [List.cons_append, firstHit, ih]
      rfl

theorem firstHit_cons_eq_none {event : Event} {before : List Event} :
    l.firstHit (event :: before) = .none ↔ l.firstHit before = .none ∧ l.hitBy before event = .none :=
  Option.or_eq_none_iff

theorem firstHit_eq_none_iff {journal : List Event} :
    firstHit ⟨some tokens, some depth⟩ journal = .none ↔ Within tokens depth journal := by
  induction journal with
  | nil => exact iff_of_true rfl ⟨Nat.zero_le _, fun _ h => (nomatch h)⟩
  | cons event before ih =>
      rw [firstHit_cons_eq_none, ih]
      cases event with
      | consumed token =>
          have hlength : (tokensOf (.consumed token :: before)).length = (tokensOf before).length + 1 := rfl
          simp only [Within, hlength, hitBy, allowsToken, decide_eq_true_eq, ite_eq_left_iff, reduceCtorEq, imp_false,
            Decidable.not_not, List.mem_cons, false_or]
          grind
      | entered active =>
          have htokens : tokensOf (.entered active :: before) = tokensOf before := rfl
          simp only [Within, htokens, hitBy, allowsDepth, decide_eq_true_eq, ite_eq_left_iff, reduceCtorEq, imp_false,
            Decidable.not_not, List.mem_cons, Event.entered.injEq]
          grind

/-- The event that hits the limit, with all events before it and behind it. -/
theorem exists_of_firstHit {journal : List Event} {e : LimitError} (h : l.firstHit journal = some e) :
    ∃ after event before, journal = after ++ event :: before ∧ l.firstHit before = .none ∧
      l.hitBy before event = some e := by
  induction journal with
  | nil => cases h
  | cons event before ih =>
      cases hbefore : l.firstHit before with
      | some e' =>
          rw [firstHit, hbefore] at h
          obtain ⟨after, event', before', rfl, hnone, hhit⟩ := ih (hbefore.trans h)
          exact ⟨event :: after, event', before', rfl, hnone, hhit⟩
      | none =>
          rw [firstHit, hbefore] at h
          exact ⟨[], event, before, rfl, hbefore, h⟩

/-- The first event that is not allowed is the token after the last one that is, or an expression that is entered inside
as many others as may be. -/
theorem hitBy_of_within {before : List Event} {event : Event} {e : LimitError} (hwithin : Within tokens depth before)
    (hnested : Nested (event :: before)) (h : hitBy ⟨some tokens, some depth⟩ before event = some e) :
    (∃ token, event = .consumed token) ∧ (tokensOf before).length = tokens ∧ e = .tokens ∨
      event = .entered depth ∧ e = .depth := by
  cases event with
  | consumed token =>
      simp only [hitBy, allowsToken, decide_eq_true_eq] at h
      split at h
      · cases h
      · rename_i hmore
        cases h
        exact .inl ⟨⟨token, rfl⟩, Nat.le_antisymm hwithin.1 (Nat.le_of_not_lt hmore), rfl⟩
  | entered active =>
      simp only [hitBy, allowsDepth, decide_eq_true_eq] at h
      split at h
      · cases h
      · rename_i hdeep
        cases h
        -- A deeper entry would come after one at the bound itself.
        have hle : active ≤ depth :=
          Nat.le_of_not_lt fun hlt => Nat.lt_irrefl _ (hwithin.2 depth (hnested.1 depth hlt))
        rw [Nat.le_antisymm hle (Nat.le_of_not_lt hdeep)]
        exact .inr ⟨rfl, rfl⟩

end Limits

namespace Parse

open State

/-! ### Journals -/

namespace State

theorem Move.journal {s t : State} (h : Move s t) : ∃ events, t.journal = events ++ s.journal := by
  cases h with
  | bumped h =>
      obtain ⟨token, ts, -, rfl⟩ := bump_eq_ok h
      exact ⟨[.consumed token], rfl⟩
  | descended =>
      obtain ⟨depth, hdescend⟩ := s.descend_eq
      rw [hdescend]
      exact ⟨[.entered s.depth], rfl⟩
  | closed h =>
      obtain ⟨frame, below, -, rfl⟩ := closeNode_eq_ok h
      exact ⟨[], rfl⟩
  | claimed h =>
      obtain ⟨rfl, -⟩ | ⟨d, -, -, rfl⟩ := claim_eq_ok h
      · exact ⟨[], rfl⟩
      · exact ⟨[], rfl⟩
  | _ => exact ⟨[], rfl⟩

theorem Reaches.journal {s t : State} (h : Reaches s t) : ∃ events, t.journal = events ++ s.journal := by
  refine h.preserves (p := fun u => ∃ events, u.journal = events ++ s.journal) ⟨[], rfl⟩ fun u v hmove hu => ?_
  obtain ⟨events, hevents⟩ := hu
  obtain ⟨events', hevents'⟩ := hmove.journal
  exact ⟨events' ++ events, by rw [hevents', hevents, List.append_assoc]⟩

theorem Move.stopped {s t : State} {e : LimitError} (h : Move s t) (hs : s.stopped = some e) : t.stopped = some e := by
  have hkept (allowed : Bool) (e' : LimitError) : s.stoppedUnless allowed e' = some e := by
    rw [stoppedUnless, hs]
    exact ite_self _
  cases h with
  | bumped h =>
      obtain ⟨token, ts, -, rfl⟩ := bump_eq_ok h
      exact hkept _ _
  | descended =>
      obtain ⟨depth, hdescend⟩ := s.descend_eq
      rw [hdescend]
      exact hkept _ _
  | closed h =>
      obtain ⟨frame, below, -, rfl⟩ := closeNode_eq_ok h
      exact hs
  | claimed h =>
      obtain ⟨rfl, -⟩ | ⟨d, -, -, rfl⟩ := claim_eq_ok h
      · exact hs
      · exact hs
  | _ => exact hs

/-- The journal is nested, and the state is as deep as expressions were entered. -/
def Journaled (s : State) : Prop := Event.Nested s.journal ∧ ∀ outer < s.depth, .entered outer ∈ s.journal

theorem Move.journaled {s t : State} (h : Move s t) (hs : s.Journaled) : t.Journaled := by
  cases h with
  | bumped h =>
      obtain ⟨token, ts, -, rfl⟩ := bump_eq_ok h
      exact ⟨hs.1, fun outer houter => List.mem_cons_of_mem _ (hs.2 outer houter)⟩
  | descended =>
      rw [descend]
      dsimp only
      split
      · refine ⟨⟨hs.2, hs.1⟩, fun outer houter => ?_⟩
        obtain hlt | rfl := Nat.lt_succ_iff_lt_or_eq.mp houter
        · exact List.mem_cons_of_mem _ (hs.2 outer hlt)
        · exact List.mem_cons_self
      · exact ⟨⟨hs.2, hs.1⟩, fun outer houter => List.mem_cons_of_mem _ (hs.2 outer houter)⟩
  | ascended => exact ⟨hs.1, fun outer houter => hs.2 outer (Nat.lt_of_lt_of_le houter (Nat.sub_le _ _))⟩
  | closed h =>
      obtain ⟨frame, below, -, rfl⟩ := closeNode_eq_ok h
      exact hs
  | claimed h =>
      obtain ⟨rfl, -⟩ | ⟨d, -, -, rfl⟩ := claim_eq_ok h
      · exact hs
      · exact hs
  | _ => exact hs

/-! ### States with limits -/

/-- No limit is set, and as many tokens were consumed as the journal says. -/
def Metered (s : State) : Prop := s.Unlimited ∧ s.consumed = (Event.tokensOf s.journal).length

theorem Metered.closeNode {s : State} (h : s.Metered) : Ensures s.closeNode Metered := by
  intro t ht
  obtain ⟨frame, below, -, rfl⟩ := closeNode_eq_ok ht
  exact h

theorem Metered.bump {s : State} (h : s.Metered) : Ensures s.bump Metered := by
  intro t ht
  have hunlimited := (Move.bumped ht).unlimited h.1
  obtain ⟨token, ts, -, rfl⟩ := bump_eq_ok ht
  exact ⟨hunlimited, congrArg (· + 1) h.2⟩

/-- The same state in a parse with limits: the limits are set, and what stopped the parse is the first one hit. -/
def limited (l : Limits) (s : State) : State := { s with limits := l, stopped := l.firstHit s.journal }

/-- An event that is not allowed stops the parse, unless it has stopped before. -/
theorem stoppedUnless_limited (l : Limits) (s : State) {event : Event} {allowed : Bool} {e : LimitError}
    (h : l.hitBy s.journal event = if allowed then none else some e) :
    (s.limited l).stoppedUnless allowed e = l.firstHit (event :: s.journal) := by
  rw [Limits.firstHit, h, stoppedUnless]
  cases allowed with
  | true => exact Option.or_none.symm
  | false => exact Option.or_eq_orElse.symm

/-- The second state is the first one with limits. -/
structure Limited (l : Limits) (s t : State) : Prop where
  eq_limited : t = s.limited l
  metered : s.Metered

namespace Limited

variable {l : Limits} {s t : State}

theorem bump (h : Limited l s t) : Agree (Limited l) s.bump t.bump := by
  obtain ⟨rfl, hmetered⟩ := h
  intro s' t' hs ht
  have hmetered' := hmetered.bump s' hs
  obtain ⟨token, ts, hahead, rfl⟩ := bump_eq_ok hs
  obtain ⟨token', ts', hahead', rfl⟩ := bump_eq_ok ht
  obtain ⟨rfl, rfl⟩ := List.cons.inj (hahead.symm.trans hahead')
  refine ⟨?_, hmetered'⟩
  have hhit : l.hitBy s.journal (.consumed token) = if l.allowsToken s.consumed then none else some .tokens := by
    rw [Limits.hitBy, hmetered.2]
  have hstopped : (s.limited l).stoppedUnless ((s.limited l).limits.allowsToken (s.limited l).consumed) .tokens =
      l.firstHit (.consumed token :: s.journal) :=
    stoppedUnless_limited l s hhit
  rw [hstopped]
  rfl

theorem closeNode (h : Limited l s t) : Agree (Limited l) s.closeNode t.closeNode := by
  obtain ⟨rfl, hmetered⟩ := h
  intro s' t' hs ht
  have hmetered' := hmetered.closeNode s' hs
  obtain ⟨frame, below, hbelow, rfl⟩ := closeNode_eq_ok hs
  obtain ⟨frame', below', hbelow', rfl⟩ := closeNode_eq_ok ht
  obtain ⟨rfl, rfl⟩ := List.cons.inj (hbelow.symm.trans hbelow')
  exact ⟨rfl, hmetered'⟩

theorem claim (h : Limited l s t) (position : Nat) (report : Except Fault Diagnostic) :
    Agree (Limited l) (s.claim position report) (t.claim position report) := by
  obtain ⟨rfl, hmetered⟩ := h
  refine .ite Iff.rfl (.ok ⟨rfl, hmetered⟩) ?_
  refine Agree.map (R := Eq) (fun d d' hd hd' => ?_) fun d d' hd => ?_
  · exact Except.ok.inj (hd.symm.trans hd')
  · rw [hd]
    exact ⟨rfl, hmetered⟩

theorem flush (h : Limited l s t) : Limited l s.flush t.flush := by
  obtain ⟨rfl, hmetered⟩ := h
  exact ⟨rfl, hmetered⟩

theorem openTight (h : Limited l s t) (kind : Option Kind) : Limited l (s.openTight kind) (t.openTight kind) := by
  obtain ⟨rfl, hmetered⟩ := h
  exact ⟨rfl, hmetered⟩

theorem leafNode (h : Limited l s t) (kind : Kind) :
    Agree (Limited l) (do (← (s.openNode kind).bump).closeNode) (do (← (t.openNode kind).bump).closeNode) :=
  (h.flush.openTight (some kind)).bump.bind fun _ _ h => h.closeNode

theorem closeDelimiter (h : Limited l s t) (closer : Kind) (construct : String) :
    Agree (Limited l) (s.closeDelimiter closer construct) (t.closeDelimiter closer construct) := by
  obtain ⟨rfl, hmetered⟩ := h
  unfold State.closeDelimiter
  have hdelimiters : (s.limited l).delimiters = s.delimiters := rfl
  rw [hdelimiters]
  cases s.delimiters with
  | nil => exact .ite Iff.rfl (bump ⟨rfl, hmetered⟩) (.ok ⟨rfl, hmetered⟩)
  | cons d ds =>
      have hforgot : Limited l { s with delimiters := ds } { s.limited l with delimiters := ds } := ⟨rfl, hmetered⟩
      refine .ite Iff.rfl (.ite Iff.rfl hforgot.bump ?_) (fun _ _ hfault => nomatch hfault)
      exact hforgot.claim _ _

theorem descend (h : Limited l s t) (hallowed : l.allowsDepth s.depth = true) : Limited l s.descend t.descend := by
  obtain ⟨rfl, hmetered⟩ := h
  have hdescend : (s.limited l).descend =
      { s.limited l with depth := s.depth + 1, journal := .entered s.depth :: s.journal } :=
    if_pos hallowed
  have hhit : l.firstHit (.entered s.depth :: s.journal) = l.firstHit s.journal := by
    rw [Limits.firstHit, Limits.hitBy, if_pos hallowed]
    exact Option.or_none
  rw [hdescend, hmetered.1.descend_eq]
  refine ⟨?_, hmetered.1, hmetered.2⟩
  simp only [limited, hhit]

end Limited

end State

theorem simulation_limited (l : Limits) : Simulation (Limited l) (Limited l) where
  current := fun ⟨heq, _⟩ => by rw [heq]; rfl
  currentText := fun ⟨heq, _⟩ => by rw [heq]; rfl
  atEnd := fun ⟨heq, _⟩ => by rw [heq]; rfl
  isFollowedBy := fun ⟨heq, _⟩ _ _ => by rw [heq]; rfl
  flush h := h.flush
  openTight h kind _ := h.openTight kind
  wrap := fun ⟨heq, hmetered⟩ kind _ => ⟨by rw [heq]; rfl, hmetered⟩
  closeNode h := h.closeNode
  bump h _ := h.bump
  reference h _ := h.leafNode .ref
  unterminatedString {s t} h _ := by
    obtain ⟨rfl, hmetered⟩ := h
    exact (Limited.claim ⟨rfl, hmetered⟩ _ _).bind fun _ _ h => h.leafNode .error
  report {s t} h issue _ detail := by
    obtain ⟨rfl, hmetered⟩ := h
    exact Limited.claim ⟨rfl, hmetered⟩ _ _
  openDelimiter {s t} h k _ := by
    obtain ⟨rfl, hmetered⟩ := h
    exact .check (Limited.bump ⟨rfl, hmetered⟩)
  closeDelimiter h closer _ construct := h.closeDelimiter closer construct
  expectSemicolon {s t} h _ detail := by
    obtain ⟨rfl, hmetered⟩ := h
    exact .ite Iff.rfl (Limited.bump ⟨rfl, hmetered⟩) (Limited.claim ⟨rfl, hmetered⟩ _ _)
  ended h := h
  bumpEnded h _ := h.bump
  closeEnded h := h.closeNode

/-! ### Runs -/

/-- The same limit stopped the second parse and is the first one that the journal of the first parse hits. -/
def StoppedBy (l : Limits) (s t : State) : Prop := ∃ e, t.stopped = some e ∧ l.firstHit s.journal = some e

theorem StoppedBy.after {l : Limits} {s t s' t' : State} (h : StoppedBy l s t)
    (hs : ∃ events, s'.journal = events ++ s.journal) (ht : Reaches t t') : StoppedBy l s' t' := by
  obtain ⟨e, hstopped, hhit⟩ := h
  obtain ⟨events, hjournal⟩ := hs
  refine ⟨e, ht.preserves hstopped fun _ _ hmove => hmove.stopped, ?_⟩
  rw [hjournal]
  exact Limits.firstHit_append hhit

theorem State.Limited.stoppedBy_descend {l : Limits} {s t : State} (h : Limited l s t)
    (hnot : ¬ l.allowsDepth s.depth = true) : StoppedBy l s.descend t.descend := by
  obtain ⟨rfl, hmetered⟩ := h
  obtain ⟨depth, hdescend⟩ := (s.limited l).descend_eq
  have hstopped : (s.limited l).descend.stopped = l.firstHit (.entered s.depth :: s.journal) := by
    rw [hdescend]
    exact stoppedUnless_limited l s rfl
  have hsome : (l.firstHit (.entered s.depth :: s.journal)).isSome = true := by
    rw [Limits.firstHit, Limits.hitBy, if_neg hnot, Option.isSome_or]
    exact Bool.or_true _
  obtain ⟨e, he⟩ := Option.isSome_iff_exists.mp hsome
  rw [hmetered.1.descend_eq]
  exact ⟨e, hstopped.trans he, he⟩

/-- The parse with limits goes along for a step, or it has stopped. -/
theorem State.Limited.act {l : Limits} {g : Goal} {goals new new' : List Goal} {s t s' t' : State} (h : Limited l s t)
    (hentering : Entering (g :: goals) s) (hgo : t.stopped = none) (hs : act g s = .ok (new, s'))
    (ht : act g t = .ok (new', t')) :
    (new' = new ∧ Entering (new ++ goals) s' ∧ Limited l s' t') ∨ StoppedBy l s' t' := by
  have hgoing {following : List Goal} (hfollowing : ∀ g ∈ following, g ≠ .expression)
      (hstep : StepRel (fun _ => Limited l) following (new, s') (new', t')) :
      new' = new ∧ Entering (new ++ goals) s' ∧ Limited l s' t' :=
    ⟨hstep.goals_eq.symm, hstep.leaves.entering hfollowing hentering.2, hstep.states⟩
  by_cases hplain : g.isPlain = true
  · have hstopped : s.isStopped = t.isStopped := by
      rw [isStopped, isStopped, hgo, h.metered.1.2]
    have hstep := (simulation_limited l).act_plain h hplain hstopped _ _ hs ht
    exact .inl (hgoing (by simp) ⟨hstep.goals_eq, hstep.leaves, hstep.states.elim id And.right⟩)
  · cases g with
    | expression =>
        have hfirst := hentering.1 rfl
        have hunlimited : s.limits.allowsDepth s.depth = true := by
          rw [h.metered.1.1]
          rfl
        by_cases hallowed : l.allowsDepth s.depth = true
        · have hallowed' : t.limits.allowsDepth t.depth = true := by
            rw [h.eq_limited]
            exact hallowed
          have hstep := (simulation_limited l).expression (h.descend hallowed) hunlimited hallowed' hfirst _ _ hs ht
          exact .inl (hgoing (by decide) hstep)
        · -- The second parse gives up on the expression, the first one goes on.
          have hstopped := h.stoppedBy_descend hallowed
          obtain ⟨-, -, tokens, -, hjournal⟩ := (quiet_act_expression h.metered.1 hfirst hs).1
          have hnot : ¬ t.limits.allowsDepth t.depth = true := by
            rw [h.eq_limited]
            exact hallowed
          have hreached : Ensures (Parse.act .expression t) fun p => Reaches t.descend p.2 := by
            rw [Parse.act, Parse.expression, if_neg hnot]
            refine Ensures.map (p := Reaches t.descend) (fun u hu => ?_) fun _ hu => hu
            exact (((Reaches.refl t.descend).move .flushed).move (.opened _)).move (.closed hu)
          exact .inr (hstopped.after ⟨_, hjournal⟩ (hreached _ ht))
    | leaveExpression =>
        cases hs
        cases ht
        refine .inl (hgoing (by simp) ⟨rfl, leaves_nil _, ?_, h.metered⟩)
        rw [h.eq_limited]
        rfl
    | _ => exact absurd rfl hplain

/-- The parse with limits goes along to the end of the run, or it has stopped. -/
theorem State.Limited.run {l : Limits} {goals : List Goal} {s t s' t' : State} (h : Limited l s t)
    (hentering : Entering goals s) (hs : Settled s goals s) (ht : Settled t goals t) (hrun : run goals s = .ok s')
    (hrun' : run goals t = .ok t') : Limited l s' t' ∨ StoppedBy l s' t' := by
  fun_induction Parse.run goals s generalizing t with
  | case1 s =>
      rw [Parse.run] at hrun'
      cases hrun
      cases hrun'
      exact .inl h
  | case2 g goals s fault hact => cases hrun
  | case3 g goals s new u hact ih =>
      have hu := hs.act.of_eq_ok hact
      have hreached : Reaches t t' := (ht.run.of_eq_ok hrun').fits.reached
      obtain ⟨new', v, hact', hrest'⟩ := run_cons_eq_ok hrun'
      have hv := ht.act.of_eq_ok hact'
      cases hstopped : t.stopped with
      | some e =>
          have hhit : l.firstHit s.journal = some e := by
            rw [h.eq_limited] at hstopped
            exact hstopped
          exact .inr (StoppedBy.after ⟨e, hstopped, hhit⟩ (hu.run.of_eq_ok hrun).fits.reached.journal hreached)
      | none =>
          obtain ⟨rfl, hentering', hlimited⟩ | hstep := h.act hentering hstopped hact hact'
          · exact ih hlimited hentering' hu.rebase hv.rebase hrun hrest'
          · exact .inr (hstep.after (hu.rebase.run.of_eq_ok hrun).fits.reached.journal
              (hv.rebase.run.of_eq_ok hrest').fits.reached)

/-- The limit that stops a parse is the first one that the journal of the parse without limits hits. -/
theorem State.Limited.stopped_run {l : Limits} {tokens : List Token} {s t : State} (h : Paired tokens)
    (hrun : Parse.run [.statements false] (.start .none tokens) = .ok s)
    (hrun' : Parse.run [.statements false] (.start l tokens) = .ok t) :
    t.stopped = l.firstHit s.journal ∧ (t.stopped = none → Limited l s t) := by
  have hstart : Limited l (.start .none tokens) (.start l tokens) := ⟨rfl, ⟨rfl, rfl⟩, rfl⟩
  obtain hlimited | ⟨e, hstopped, hhit⟩ := hstart.run (entering_start _) (.start _ h) (.start _ h) hrun hrun'
  · refine ⟨?_, fun _ => hlimited⟩
    rw [hlimited.eq_limited]
    rfl
  · refine ⟨hstopped.trans hhit.symm, fun hnone => ?_⟩
    rw [hnone] at hstopped
    cases hstopped

end Parse

open Parse Event

/-- The result of a parse with limits can be told from the events and the result of the parse without limits. -/
theorem parse_limited (l : Limits) (source : String) :
    ∃ p, parse .none source = .ok p ∧
      tokensOf (parseEvents source) = (lex source).filter (fun t => !t.isTrivia) ∧
      Nested (parseEvents source).reverse ∧
      (∀ e, l.firstHit (parseEvents source).reverse = some e → parse l source = .error (.limit e)) ∧
      (l.firstHit (parseEvents source).reverse = none → parse l source =
        .ok { p with consumed := if l.tokens.isSome then (tokensOf (parseEvents source)).length else 0 }) := by
  have hpaired := paired_lex source
  obtain ⟨s, hrun, hreached, -, ⟨e, hnone, -⟩ | ⟨-, hend, hparse⟩⟩ := ofTokens_eq .none hpaired
  · exact absurd rfl hnone
  obtain ⟨t, hrun', -, -, hresult⟩ := ofTokens_eq l hpaired
  obtain ⟨hstopped, hlimited⟩ := State.Limited.stopped_run hpaired hrun hrun'
  obtain ⟨hjournal, hsignificant⟩ := (level_start (lex source)).run hrun
  rw [← parseEvents] at hjournal hsignificant
  rw [State.significant_of_atEnd hend, List.append_nil] at hsignificant
  replace hjournal : s.journal = (parseEvents source).reverse := hjournal.trans (List.append_nil _)
  have hnested : s.Journaled :=
    hreached.preserves ⟨trivial, fun _ hlt => absurd hlt (Nat.not_lt_zero _)⟩ fun _ _ hmove => hmove.journaled
  rw [← hjournal]
  refine ⟨_, hparse, hsignificant.symm, hnested.1, fun e he => ?_, fun hnone => ?_⟩
  · have hflush : t.flush.stopped = some e := hstopped.trans he
    rw [parse, ofTokens, hrun']
    simp only [State.result, hflush]
  · have hflush : t.flush.stopped = none := hstopped.trans hnone
    obtain ⟨e, -, herror⟩ | ⟨-, -, hok⟩ := hresult
    · -- Only a state that has stopped fails with a limit.
      simp only [ofTokens, hrun', State.result, hflush] at herror
      split at herror
      · cases herror
      · cases herror
    · obtain ⟨rfl, hmetered⟩ := hlimited (hstopped.trans hnone)
      have hconsumed : (s.limited l).consumed = (tokensOf (parseEvents source)).length := by
        rw [← List.length_reverse, ← tokensOf_reverse, ← hjournal]
        exact hmetered.2
      rw [parse, hok, hconsumed]
      rfl

/-- Limits are exact and otherwise invisible. A parse without limits gives a tree, and consumes every token of the
source once that is not trivia. A parse with limits gives the same result if all its events are allowed. Otherwise it
fails with the limit that the first other event hits: a token too many, or an expression inside as many others as may
be. -/
theorem parse_limits_exact (source : String) (tokens depth : Nat) :
    ∃ p, parse .none source = .ok p ∧
      tokensOf (parseEvents source) = (lex source).filter (fun t => !t.isTrivia) ∧
      (Within tokens depth (parseEvents source) →
        parse ⟨some tokens, some depth⟩ source =
          .ok { p with consumed := (tokensOf (parseEvents source)).length }) ∧
      (¬ Within tokens depth (parseEvents source) →
        ∃ before event after, parseEvents source = before ++ event :: after ∧ Within tokens depth before ∧
          ((∃ token, event = .consumed token) ∧ (tokensOf before).length = tokens ∧
              parse ⟨some tokens, some depth⟩ source = .error (.limit .tokens) ∨
            event = .entered depth ∧ parse ⟨some tokens, some depth⟩ source = .error (.limit .depth))) := by
  obtain ⟨p, hparse, htokens, hnested, hhit, hnone⟩ := parse_limited ⟨some tokens, some depth⟩ source
  have hwithin : Limits.firstHit ⟨some tokens, some depth⟩ (parseEvents source).reverse = none ↔
      Within tokens depth (parseEvents source) :=
    Limits.firstHit_eq_none_iff.trans within_reverse
  refine ⟨p, hparse, htokens, fun h => hnone (hwithin.mpr h), fun h => ?_⟩
  obtain ⟨e, he⟩ := Option.ne_none_iff_exists'.mp (mt hwithin.mp h)
  obtain ⟨after, event, before, hsplit, hbefore, hevent⟩ := Limits.exists_of_firstHit he
  have hallowed := Limits.firstHit_eq_none_iff.mp hbefore
  rw [hsplit] at hnested
  refine ⟨before.reverse, event, after.reverse, ?_, within_reverse.mpr hallowed, ?_⟩
  · rw [← List.reverse_reverse (parseEvents source), hsplit]
    simp
  · rw [tokensOf_reverse, List.length_reverse]
    obtain ⟨htoken, hlength, rfl⟩ | ⟨hentered, rfl⟩ := Limits.hitBy_of_within hallowed hnested.of_append hevent
    · exact .inl ⟨htoken, hlength, hhit _ he⟩
    · exact .inr ⟨hentered, hhit _ he⟩

end Transducer
