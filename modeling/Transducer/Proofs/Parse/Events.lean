import Transducer.Proofs.Parse.Exact
import Transducer.Proofs.Parse.Simulation

/-!
# What a parse is charged for

Limits are charged for two kinds of events: a token is consumed, or an expression is entered while others are being
read. The events of a run are read off its agenda and the tokens ahead. An expression that is being read is one that is
still to be left, so the number of those active is the number of goals that leave one.

A parse without limits keeps a journal and counts how deep it is. Both are shown to be what the events say: every
significant token is consumed once and in order, and the depth is what it was before whenever an expression is left.
-/

namespace Transducer

/-- The tokens consumed. -/
def Event.tokensOf (events : List Event) : List Token :=
  events.filterMap fun
    | .consumed token => some token
    | .entered _ => none

namespace Event

@[simp]
theorem tokensOf_append (events events' : List Event) :
    tokensOf (events ++ events') = tokensOf events ++ tokensOf events' := List.filterMap_append

@[simp]
theorem tokensOf_consumed (tokens : List Token) : tokensOf (tokens.map .consumed) = tokens := by
  induction tokens with
  | nil => rfl
  | cons token tokens ih => exact congrArg (token :: ·) ih

end Event

namespace Parse

open State

/-! ### The events of a run -/

/-- The number of expressions that are being read. -/
def activeOf (goals : List Goal) : Nat := goals.count .leaveExpression

/-- The significant tokens that are ahead of `s` but not of `t`. -/
def consumedBetween (s t : State) : List Token := s.significant.take (s.significant.length - t.significant.length)

/-- The events of one step: an expression may be entered, and then tokens may be consumed. -/
def stepEvents (g : Goal) (goals : List Goal) (s t : State) : List Event :=
  (if g = .expression then [.entered (activeOf goals)] else []) ++ (consumedBetween s t).map .consumed

/-- The events until the agenda is empty, in order. -/
def events : List Goal → State → List Event
  | [], _ => []
  | g :: goals, s =>
      match _h : act g s with
      | .error _ => []
      | .ok (new, t) => stepEvents g goals s t ++ events (new ++ goals) t
termination_by goals s => measureOf goals s
decreasing_by exact measureOf_act_lt (by assumption)

theorem events_cons {g : Goal} {goals new : List Goal} {s t : State} (h : act g s = .ok (new, t)) :
    events (g :: goals) s = stepEvents g goals s t ++ events (new ++ goals) t := by
  rw [events]
  split
  · rename_i fault hfault
    rw [h] at hfault
    cases hfault
  · rename_i new' t' hact
    rw [h] at hact
    cases hact
    rfl

/-! ### Steps -/

/-- From `s` to `t` some tokens were consumed, and nothing else happened that limits are charged for. -/
def Quiet (s t : State) : Prop :=
  t.Unlimited ∧ t.depth = s.depth ∧
    ∃ tokens, s.significant = tokens ++ t.significant ∧ t.journal = (tokens.map .consumed).reverse ++ s.journal

theorem quiet_refl {s : State} (h : s.Unlimited) : Quiet s s := ⟨h, rfl, [], rfl, rfl⟩

theorem Quiet.consumedBetween_eq {s t : State} (h : Quiet s t) :
    t.journal = ((consumedBetween s t).map .consumed).reverse ++ s.journal ∧
      s.significant = consumedBetween s t ++ t.significant := by
  obtain ⟨-, -, tokens, hsignificant, hjournal⟩ := h
  have htake : consumedBetween s t = tokens := by
    rw [consumedBetween, hsignificant, List.length_append, Nat.add_sub_cancel, List.take_left]
  rw [htake]
  exact ⟨hjournal, hsignificant⟩

theorem Quiet.flush {s t : State} (h : Quiet s t) : Quiet s t.flush := by
  obtain ⟨hunlimited, hdepth, tokens, hsignificant, hjournal⟩ := h
  refine ⟨hunlimited, hdepth, tokens, ?_, hjournal⟩
  rw [hsignificant]
  exact congrArg (tokens ++ ·) (filter_significant_dropTrivia t.rest).symm

theorem Quiet.bump {s t : State} (h : Quiet s t) : Ensures t.bump (Quiet s) := by
  obtain ⟨hunlimited, hdepth, tokens, hsignificant, hjournal⟩ := h
  intro u hu
  have hunlimited' := (Move.bumped hu).unlimited hunlimited
  obtain ⟨token, ts, hahead, rfl⟩ := bump_eq_ok hu
  refine ⟨hunlimited', hdepth, tokens ++ [token], ?_, ?_⟩
  · rw [hsignificant, significant_of_ahead hahead, List.append_assoc]
    rfl
  · simp only [hjournal, List.map_append, List.reverse_append, List.map_singleton, List.reverse_singleton,
      List.nil_append, List.cons_append]

theorem Quiet.closeNode {s t : State} (h : Quiet s t) : Ensures t.closeNode (Quiet s) := by
  intro u hu
  obtain ⟨frame, below, -, rfl⟩ := closeNode_eq_ok hu
  exact h

theorem preserved_quiet (s : State) : Preserved (Quiet s) where
  flush h := h.flush
  openTight h _ _ := h
  wrap h _ _ := h
  closeNode h := h.closeNode
  bump h := h.bump
  reference {u} h _ := by
    have hopened : Quiet s (u.openNode .ref) := h.flush
    exact hopened.bump.bind fun _ hu => hu.closeNode
  claim h position report := by
    intro u hu
    obtain ⟨rfl, -⟩ | ⟨d, -, -, rfl⟩ := claim_eq_ok hu
    · exact h
    · exact h
  withDelimiters h _ := h

theorem quiet_act_plain {g : Goal} {new : List Goal} {s t : State} (hs : s.Unlimited) (hplain : g.isPlain = true)
    (h : act g s = .ok (new, t)) : Quiet s t ∧ Leaves [] new t := by
  have hstep := (preserved_quiet s).simulation.act_plain ⟨rfl, quiet_refl hs⟩ hplain rfl _ _ h h
  exact ⟨hstep.states.elim And.right fun hended => hended.2.2, hstep.leaves⟩

/-- A step that enters an expression. -/
theorem quiet_act_expression {new : List Goal} {s t : State} (hs : s.Unlimited)
    (hfirst : s.looksAtAny .exprFirst = true) (h : act .expression s = .ok (new, t)) :
    Quiet s.descend t ∧ Leaves [.leaveExpression] new t := by
  have hallowed : s.limits.allowsDepth s.depth = true := by
    rw [hs.1]
    rfl
  have hdescend : Quiet s.descend s.descend := quiet_refl (Move.descended.unlimited hs)
  have hstep :=
    (preserved_quiet s.descend).simulation.expression (s := s) (t := s) ⟨rfl, hdescend⟩ hallowed hallowed hfirst _ _ h h
  exact ⟨hstep.states.2, hstep.leaves⟩

theorem Leaves.activeOf_eq {following new : List Goal} {s : State} (h : Leaves following new s) :
    activeOf new = activeOf following := by
  obtain ⟨first, plain, rfl, hfirst, hplain⟩ := h
  have hnone : Goal.leaveExpression ∉ plain := fun hmem => nomatch hplain _ hmem
  obtain rfl | ⟨rfl, -⟩ := hfirst
  · simp [activeOf, List.count_eq_zero_of_not_mem hnone]
  · simp [activeOf, List.count_eq_zero_of_not_mem hnone]

/-! ### Runs -/

/-- What holds of an agenda and the state of a parse without limits: the depth is the number of expressions that are
being read, and the next goal can be worked on. -/
structure Level (goals : List Goal) (s : State) : Prop where
  unlimited : s.Unlimited
  depth_eq : s.depth = activeOf goals
  entering : Entering goals s

theorem level_start (tokens : List Token) : Level [.statements false] (.start .none tokens) :=
  ⟨⟨rfl, rfl⟩, rfl, entering_start _⟩

/-- A step extends the journal by its events, and the tokens that it consumed are no longer ahead. -/
theorem Level.act {g : Goal} {goals new : List Goal} {s t : State} (h : Level (g :: goals) s)
    (hact : act g s = .ok (new, t)) :
    Level (new ++ goals) t ∧ t.journal = (stepEvents g goals s t).reverse ++ s.journal ∧
      s.significant = Event.tokensOf (stepEvents g goals s t) ++ t.significant := by
  have hactive (xs : List Goal) : activeOf (xs ++ goals) = activeOf xs + activeOf goals := List.count_append
  by_cases hplain : g.isPlain = true
  · obtain ⟨hquiet, hleaves⟩ := quiet_act_plain h.unlimited hplain hact
    have hevents : stepEvents g goals s t = (consumedBetween s t).map .consumed := by
      rw [stepEvents, if_neg (ne_expression_of_isPlain hplain), List.nil_append]
    obtain ⟨hjournal, hsignificant⟩ := hquiet.consumedBetween_eq
    rw [hevents, Event.tokensOf_consumed]
    refine ⟨⟨hquiet.1, ?_, hleaves.entering (fun _ hg => nomatch hg) h.entering.2⟩, hjournal, hsignificant⟩
    have hne : (g == .leaveExpression) = false := by
      refine beq_eq_false_iff_ne.mpr fun heq => ?_
      rw [heq] at hplain
      cases hplain
    rw [hquiet.2.1, h.depth_eq, hactive, hleaves.activeOf_eq, activeOf, List.count_cons, hne]
    simp [activeOf]
  · cases g with
    | expression =>
        have hdescend := h.unlimited.descend_eq
        obtain ⟨hquiet, hleaves⟩ := quiet_act_expression h.unlimited (h.entering.1 rfl) hact
        have hsame : s.descend.significant = s.significant := congrArg (List.filter _) s.rest_descend
        obtain ⟨hjournal, hsignificant⟩ := hquiet.consumedBetween_eq
        have hbetween : consumedBetween s.descend t = consumedBetween s t := by
          rw [consumedBetween, consumedBetween, hsame]
        have hdepth : s.depth = activeOf goals := h.depth_eq
        rw [hbetween, hsame] at hsignificant
        rw [hbetween, hdescend] at hjournal
        refine ⟨⟨hquiet.1, ?_, hleaves.entering (by decide) h.entering.2⟩, ?_, ?_⟩
        · rw [hquiet.2.1, hdescend, hactive, hleaves.activeOf_eq, hdepth]
          exact Nat.add_comm _ _
        · rw [hjournal, stepEvents, if_pos rfl, List.reverse_append, List.append_assoc, hdepth]
          rfl
        · rw [stepEvents, if_pos rfl, Event.tokensOf_append, Event.tokensOf_consumed]
          exact hsignificant
    | leaveExpression =>
        cases hact
        have hsame : s.ascend.significant = s.significant := rfl
        have hnone : stepEvents .leaveExpression goals s s.ascend = [] := by
          rw [stepEvents, consumedBetween, hsame, Nat.sub_self]
          rfl
        have hdepth := h.depth_eq
        rw [activeOf, List.count_cons_self] at hdepth
        rw [hnone]
        refine ⟨⟨h.unlimited, ?_, fun hhead => ?_, fun g hg => ?_⟩, rfl, rfl⟩
        · rw [State.ascend, hdepth]
          rfl
        · exact absurd rfl (h.entering.2 _ (List.mem_of_head? hhead))
        · exact h.entering.2 g (List.mem_of_mem_tail hg)
    | _ => exact absurd rfl hplain

/-- A run extends the journal by its events, and the tokens that it consumed are no longer ahead. -/
theorem Level.run {goals : List Goal} {s s' : State} (h : Level goals s) (hrun : run goals s = .ok s') :
    s'.journal = (events goals s).reverse ++ s.journal ∧
      s.significant = Event.tokensOf (events goals s) ++ s'.significant := by
  fun_induction Parse.run goals s with
  | case1 s =>
      cases hrun
      rw [events]
      exact ⟨rfl, rfl⟩
  | case2 g goals s fault hact => cases hrun
  | case3 g goals s new t hact ih =>
      obtain ⟨hlevel, hjournal, hsignificant⟩ := h.act hact
      obtain ⟨hjournal', hsignificant'⟩ := ih hlevel hrun
      rw [events_cons hact]
      constructor
      · rw [hjournal', hjournal, List.reverse_append, List.append_assoc]
      · rw [hsignificant, hsignificant', Event.tokensOf_append, List.append_assoc]

end Parse

/-- The events of a source that is parsed without limits, in order. -/
def parseEvents (source : String) : List Event := Parse.events [.statements false] (.start .none (lex source))

end Transducer
