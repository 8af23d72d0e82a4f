import Transducer.Proofs.Parse.Agenda

/-!
# Every parse ends

What holds of an agenda and its state at the start is preserved by every step: the goals account for the frames and
delimiters, and quotes are in order unless tokens are being skipped or the parse has stopped. So no step faults,
whatever the tokens and the limits are. At the end only the root is left, and unless a limit was hit nothing is ahead
but trivia.
-/

namespace Transducer

/-! ### Inside a string -/

/-- Tokens of which the first ones may be the rest of a string. -/
inductive Loose : List Token → Prop where
  | inOrder {ts : List Token} (h : Paired ts) : Loose ts
  | closing {r : Token} {ts : List Token} (hr : r.kind.isQuote = true) (hts : Paired ts) : Loose (r :: ts)
  | content {v r : Token} {ts : List Token} (hv : v.kind = .strVal) (hr : r.kind.isQuote = true) (hts : Paired ts) :
      Loose (v :: r :: ts)

namespace Loose

theorem tail {ts : List Token} (h : Loose ts) : Loose ts.tail := by
  cases h with
  | closing _ hts => exact .inOrder hts
  | content _ hr hts => exact .closing hr hts
  | inOrder h =>
      cases h with
      | nil => exact .inOrder .nil
      | plain _ hts => exact .inOrder hts
      | empty hq hr hts => exact .closing (hr ▸ hq) hts
      | full hq hv hr hts => exact .content hv (hr ▸ hq) hts

theorem dropTrivia {ts : List Token} (h : Loose ts) : Loose (ts.dropWhile Token.isTrivia) := by
  induction ts with
  | nil => exact h
  | cons t ts ih =>
      rw [List.dropWhile_cons]
      split
      · exact ih h.tail
      · exact h

end Loose

namespace Parse

open State

variable {origin s : State}

theorem paired_of_loose (h : Loose s.rest) (hpart : s.current.isStringPart = false) : Paired s.rest := by
  generalize hrest : s.rest = ts at h
  have hhead {t : Token} {us : List Token} (ht : t.kind.isStringPart = true) (hts : ts = t :: us) : Paired ts := by
    rw [current_of_ahead (ahead_of_isStringPart ht (hrest.trans hts)), ht] at hpart
    cases hpart
  cases h with
  | inOrder h => exact h
  | closing hr _ => exact hhead (isStringPart_of_isQuote hr) rfl
  | content hv _ _ => exact hhead (by rw [hv]; rfl) rfl

theorem not_isStringPart_of_atEnd (h : s.atEnd = true) : s.current.isStringPart = false := by
  rw [current, List.isEmpty_iff.mp h]
  rfl

theorem not_isStringPart_of_atBoundary (h : s.atBoundary = true) : s.current.isStringPart = false := by
  unfold atBoundary at h
  split at h
  · rename_i hid
    rw [hid]
    rfl
  · revert h
    cases s.current <;> decide

/-! ### Agendas -/

/-- Quotes are in order, or the goals left do not mind. -/
inductive Steady : List Goal → State → Prop where
  | inOrder {goals : List Goal} {s : State} (h : Paired s.rest) : Steady goals s
  | stopped {goals : List Goal} {s : State} (hstopped : s.isStopped = true)
      (hgoals : ∀ g ∈ goals, g.isTolerant = true) : Steady goals s
  | skipping {goals : List Goal} {s : State} (hloose : Loose s.rest) (hgoals : ∀ g ∈ goals, g.isTolerant = true) :
      Steady (.skip :: goals) s

/-- The statements of the whole source come last. When they are done the source is at its end, or the parse has
stopped. -/
def Concluding (goals : List Goal) (s : State) : Prop :=
  (∃ front, goals = front ++ [.statements false]) ∨ goals = [] ∧ (s.isStopped = true ∨ s.atEnd = true)

/-- What holds of the agenda and the state between two steps. -/
structure Settled (origin : State) (goals : List Goal) (s : State) : Prop where
  fits : Fits origin False (closesOf goals) (pendingOf goals) s
  ordered : Ordered goals
  steady : Steady goals s
  concluding : Concluding goals s

theorem Concluding.step {g : Goal} {goals : List Goal} (h : Concluding (g :: goals) s) (hg : g ≠ .statements false)
    (new : List Goal) (t : State) : Concluding (new ++ goals) t := by
  obtain ⟨front, hfront⟩ | ⟨hnil, -⟩ := h
  · cases front with
    | nil =>
        cases hfront
        exact absurd rfl hg
    | cons g' front =>
        cases hfront
        exact .inl ⟨new ++ front, (List.append_assoc _ _ _).symm⟩
  · cases hnil

theorem Concluding.tail {g : Goal} {goals : List Goal} {t : State} (h : Concluding (g :: goals) s)
    (ht : t.isStopped = true ∨ t.atEnd = true) : Concluding goals t := by
  obtain ⟨front, hfront⟩ | ⟨hnil, -⟩ := h
  · cases front with
    | nil =>
        cases hfront
        exact .inr ⟨rfl, ht⟩
    | cons _ front =>
        cases hfront
        exact .inl ⟨front, rfl⟩
  · cases hnil

theorem Ordered.tail {g : Goal} {goals : List Goal} (h : Ordered (g :: goals)) : Ordered goals :=
  (List.pairwise_cons.mp h).2

theorem Ordered.tolerant {g : Goal} {goals : List Goal} (h : Ordered (g :: goals)) (hg : g.isInner = false) :
    ∀ h ∈ goals, h.isTolerant = true := by
  intro h' hmem
  obtain hinner | htolerant := (List.pairwise_cons.mp h).1 h' hmem
  · rw [hg] at hinner
    cases hinner
  · exact htolerant

theorem Inner.ordered_append {new goals : List Goal} (hnew : Inner new) (hgoals : Ordered goals) :
    Ordered (new ++ goals) :=
  List.pairwise_append.mpr ⟨hnew.ordered, hgoals, fun g hg _ _ => .inl (hnew g hg)⟩

theorem Ordered.append {new goals : List Goal} (hnew : Ordered new) (hgoals : Ordered goals)
    (htolerant : ∀ g ∈ goals, g.isTolerant = true) : Ordered (new ++ goals) :=
  List.pairwise_append.mpr ⟨hnew, hgoals, fun _ _ g hg => .inr (htolerant g hg)⟩

theorem Fits.rebase {p : Prop} {n : Nat} {ks : List Kind} (hs : Fits origin p n ks s) : Fits s p n ks s :=
  ⟨.refl s, hs.placed, hs.height_eq, hs.opened_eq, hs.paired⟩

theorem Fits.after {t : State} {p : Prop} {n : Nat} {ks : List Kind} (h : Reaches origin s) (ht : Fits s p n ks t) :
    Fits origin p n ks t :=
  ⟨h.trans ht.reached, ht.placed, ht.height_eq, ht.opened_eq, ht.paired⟩

/-! ### Steps -/

section Steps

variable {n : Nat} {ks : List Kind} {g : Goal} {goals : List Goal}

theorem act_inner (hg : g.isInner = true) (hs : Fits origin True (n + g.closes) (g.pending ++ ks) s) :
    Balanced origin True n ks Inner (act g s) := by
  cases g with
  | expression => exact hs.expression
  | leaveExpression => exact .ok ⟨hs.ascend, inner_nil⟩
  | suffixOf strength => exact hs.suffixStep strength
  | endOutput => exact balanced_done inner_nil hs.closeNode
  | arguments => exact hs.moreArguments
  | endGroup => exact balanced_done inner_nil hs.endGroup
  | parameters => exact hs.parameters
  | _ => cases hg

/-- Goals that end a statement or a part of it. -/
theorem act_ending (hinner : g.isInner = false) (hstatements : ∀ b, g ≠ .statements b) (hskip : g ≠ .skip)
    (hs : Fits origin True (n + g.closes) (g.pending ++ ks) s) :
    Balanced origin True n ks Ordered (act g s) := by
  cases g with
  | functionBody => exact hs.functionBody
  | endBody => exact balanced_done ordered_nil hs.endBody
  | endRecovery => exact balanced_done ordered_nil hs.endRecovery
  | endSkipped => exact balanced_done ordered_nil hs.endSkipped
  | endStatement form => exact hs.endStatement form
  | statements b => exact absurd rfl (hstatements b)
  | skip => exact absurd rfl hskip
  | _ => cases hinner

/-- A parse that has stopped reads no more statements and skips no more tokens. -/
theorem act_stopped (hg : g.isTolerant = true) (hstopped : s.isStopped = true)
    (hs : Fits origin False (n + g.closes) (g.pending ++ ks) s) : Balanced origin False n ks (· = []) (act g s) := by
  cases g with
  | statements inBody =>
      simp only [act, Parse.statements, hstopped, Bool.true_or, if_true]
      exact .ok ⟨hs, rfl⟩
  | skip =>
      simp only [act, Parse.skip, hstopped, Bool.or_true, Bool.true_or, if_true]
      exact .ok ⟨hs, rfl⟩
  | endBody => exact balanced_done rfl hs.endBody
  | endRecovery => exact balanced_done rfl hs.endRecovery
  | endSkipped => exact balanced_done rfl hs.endSkipped
  | _ => cases hg

/-- One token is skipped, or the skipping ends with quotes in order. -/
theorem Fits.skip (hs : Fits origin False n ks s) (hloose : Loose s.rest) :
    Returns (Parse.skip s) fun a => Fits origin False n ks a.2 ∧
      (a.1 = [.skip] ∧ Loose a.2.rest ∨ a.1 = [] ∧ (Paired a.2.rest ∨ a.2.isStopped = true)) := by
  unfold Parse.skip
  split
  · rename_i hstop
    simp only [Bool.or_eq_true] at hstop
    refine .ok ⟨hs, .inr ⟨rfl, ?_⟩⟩
    obtain (hend | hstopped) | hboundary := hstop
    · exact .inl (paired_of_loose hloose (not_isStringPart_of_atEnd hend))
    · exact .inr hstopped
    · exact .inl (paired_of_loose hloose (not_isStringPart_of_atBoundary hboundary))
  · rename_i hstop
    simp only [Bool.or_eq_true, not_or, Bool.not_eq_true] at hstop
    refine (hs.bump_rest hstop.1.1 False.elim).map fun t ht => ⟨ht.1, .inl ⟨rfl, ?_⟩⟩
    rw [ht.2]
    exact hloose.dropTrivia.tail

/-- Recovery consumes the token it reports, which may be the quote that opens a string. -/
theorem Fits.recovery (hs : Fits origin True n ks s) (message : String) (hend : s.atEnd = false) :
    Returns (Parse.recovery message s) fun a =>
      Fits origin False (n + 1) ks a.2 ∧ a.1 = [.skip, .endRecovery] ∧ Loose a.2.rest := by
  unfold Parse.recovery
  refine ((hs.openNode .error).report_rest .unexpectedToken message).bind fun t ht => ?_
  have hahead : t.ahead = (s.openNode .error).ahead := congrArg (List.dropWhile Token.isTrivia) ht.2
  have hnext : t.atEnd = false := by
    rw [atEnd, hahead]
    exact (atEnd_openNode s .error).trans hend
  refine ((ht.1.weaken False.elim).bump_rest hnext False.elim).map fun u hu => ⟨hu.1, rfl, ?_⟩
  rw [hu.2]
  exact (Loose.inOrder (ht.1.paired trivial).dropTrivia).tail

/-- Where a statement leaves the parser: quotes are in order, or tokens are being skipped. -/
def Begun (origin : State) (n : Nat) (ks : List Kind) (r : Step) : Prop :=
  Returns r fun a => Fits origin False (n + closesOf a.1) (pendingOf a.1 ++ ks) a.2 ∧ Ordered a.1 ∧
    (Paired a.2.rest ∨ a.1 = [.skip, .endRecovery] ∧ Loose a.2.rest)

theorem Balanced.begun {r : Step} (h : Balanced origin True n ks Ordered r) : Begun origin n ks r :=
  h.mono fun _ ha => ⟨ha.1.weaken False.elim, ha.2, .inl (ha.1.paired trivial)⟩

theorem Fits.begun_recovery (hs : Fits origin True n ks s) (message : String) (hend : s.atEnd = false) :
    Begun origin n ks (Parse.recovery message s) := by
  refine (hs.recovery message hend).mono fun a ha => ?_
  obtain ⟨ht, hgoals, hloose⟩ := ha
  rw [hgoals]
  exact ⟨ht, ordered_pair (.inr rfl), .inr ⟨rfl, hloose⟩⟩

theorem Fits.statement (hs : Fits origin True n ks s) (hend : s.atEnd = false) :
    Begun origin n ks (Parse.statement s) := by
  unfold Parse.statement
  split
  · exact hs.definition.begun
  · exact hs.definition.begun
  · rename_i hk
    exact (balanced_done ordered_nil (hs.importStatement hk)).begun
  · rename_i hk
    exact (hs.functionStatement hk).begun
  · rename_i hk
    exact (hs.returnStatement hk).begun
  · exact hs.begun_recovery _ hend

/-! ### The invariant -/

namespace Settled

/-- A step in which quotes stay in order settles the goals it leaves over. -/
theorem of_balanced {shape : List Goal → Prop} {r : Step}
    (h : Balanced origin True (closesOf goals) (pendingOf goals) shape r)
    (hordered : ∀ new, shape new → Ordered (new ++ goals))
    (hconcluding : ∀ new t, Concluding (new ++ goals) t) :
    Returns r fun a => Settled origin (a.1 ++ goals) a.2 := by
  refine h.mono fun a ha => ⟨(ha.1.cast ?_ ?_).weaken False.elim, hordered _ ha.2, ?_, hconcluding _ _⟩
  · rw [closesOf_append, Nat.add_comm]
  · rw [pendingOf_append]
  · exact .inOrder (ha.1.paired trivial)

theorem skip (h : Settled origin (.skip :: goals) s) (hloose : Loose s.rest) :
    Returns (Parse.skip s) fun a => Settled origin (a.1 ++ goals) a.2 := by
  have htolerant := h.ordered.tolerant rfl
  have hfits : Fits origin False (closesOf goals) (pendingOf goals) s := h.fits.cast (by simp [Goal.closes]) rfl
  refine (hfits.skip hloose).mono fun a ha => ?_
  obtain ⟨ht, ⟨hgoals, hnext⟩ | ⟨hgoals, hnext⟩⟩ := ha
  · rw [hgoals]
    exact ⟨ht.cast (by simp [Goal.closes]) rfl, h.ordered, .skipping hnext htolerant,
      h.concluding.step (by decide) [.skip] _⟩
  · rw [hgoals]
    refine ⟨ht, h.ordered.tail, ?_, h.concluding.step (by decide) [] _⟩
    obtain hpaired | hstopped := hnext
    · exact .inOrder hpaired
    · exact .stopped hstopped htolerant

theorem statements {inBody : Bool} (h : Settled origin (.statements inBody :: goals) s) (hpaired : Paired s.rest) :
    Returns (Parse.statements inBody s) fun a => Settled origin (a.1 ++ goals) a.2 := by
  have htolerant : ∀ g ∈ goals, g.isTolerant = true := h.ordered.tolerant rfl
  have hfits : Fits origin True (closesOf goals) (pendingOf goals) s :=
    (h.fits.cast (by simp [Goal.closes]) rfl).pair hpaired
  unfold Parse.statements
  split
  · rename_i hstop
    refine .ok ⟨hfits.weaken False.elim, h.ordered.tail, .inOrder hpaired, ?_⟩
    by_cases hlast : inBody = false
    · -- Outside of function bodies no brace ends the statements.
      simp only [hlast, Bool.false_and, Bool.or_false, Bool.or_eq_true] at hstop
      exact h.concluding.tail hstop
    · exact h.concluding.step (by simpa using hlast) [] s
  · rename_i hstop
    simp only [Bool.or_eq_true, not_or, Bool.not_eq_true] at hstop
    have hend : s.atEnd = false := hstop.1.2
    have hfirst : Begun origin (closesOf goals) (pendingOf goals)
        (if s.current = .braceClose then Parse.recovery "`\x7d` without an open function body" s
          else Parse.statement s) := by
      split
      · exact hfits.begun_recovery _ hend
      · exact hfits.statement hend
    refine hfirst.map fun a ha => ?_
    obtain ⟨ht, hordered, hnext⟩ := ha
    have hrest : ∀ g ∈ Goal.statements inBody :: goals, g.isTolerant = true :=
      List.forall_mem_cons.mpr ⟨rfl, htolerant⟩
    simp only [List.append_assoc, List.singleton_append]
    refine ⟨ht.cast ?_ ?_, hordered.append h.ordered hrest, ?_, ?_⟩
    · rw [closesOf_append, closesOf_cons, Goal.closes, Nat.zero_add, Nat.add_comm]
    · exact (pendingOf_append a.1 (.statements inBody :: goals)).symm
    · obtain hpaired' | ⟨hgoals, hloose⟩ := hnext
      · exact .inOrder hpaired'
      · rw [hgoals]
        exact .skipping hloose (List.forall_mem_cons.mpr ⟨rfl, hrest⟩)
    · obtain ⟨front, hfront⟩ | ⟨hnil, -⟩ := h.concluding
      · exact .inl ⟨a.1 ++ front, by rw [hfront, List.append_assoc]⟩
      · cases hnil

/-- Once the parse has stopped, every step ends its goal. -/
theorem stopped (h : Settled origin (g :: goals) s) (hstopped : s.isStopped = true)
    (hgoals : ∀ g' ∈ g :: goals, g'.isTolerant = true) :
    Returns (Parse.act g s) fun a => Settled origin (a.1 ++ goals) a.2 := by
  obtain ⟨hg, hrest⟩ := List.forall_mem_cons.mp hgoals
  have hfits : Fits s False (closesOf goals + g.closes) (g.pending ++ pendingOf goals) s :=
    h.fits.rebase.cast (by rw [closesOf_cons, Nat.add_comm]) rfl
  refine (act_stopped hg hstopped hfits).mono fun a ha => ?_
  obtain ⟨ht, hnew⟩ := ha
  have hstopped' : a.2.isStopped = true := ht.reached.isStopped hstopped
  rw [hnew] at ht ⊢
  exact ⟨ht.after h.fits.reached, h.ordered.tail, .stopped hstopped' hrest, h.concluding.tail (.inl hstopped')⟩

theorem act (h : Settled origin (g :: goals) s) :
    Returns (Parse.act g s) fun a => Settled origin (a.1 ++ goals) a.2 := by
  have hfits : Fits origin False (closesOf goals + g.closes) (g.pending ++ pendingOf goals) s :=
    h.fits.cast (by rw [closesOf_cons, Nat.add_comm]) rfl
  by_cases hskip : g = .skip
  · subst hskip
    cases h.steady with
    | inOrder hpaired => exact h.skip (.inOrder hpaired)
    | skipping hloose _ => exact h.skip hloose
    | stopped hstopped hgoals => exact h.stopped hstopped hgoals
  · cases h.steady with
    | skipping _ _ => exact absurd rfl hskip
    | stopped hstopped hgoals => exact h.stopped hstopped hgoals
    | inOrder hpaired =>
        by_cases hinner : g.isInner = true
        · refine of_balanced (act_inner hinner (hfits.pair hpaired)) (fun new hnew => ?_) (h.concluding.step ?_)
          · exact hnew.ordered_append h.ordered.tail
          · rintro rfl
            cases hinner
        · by_cases hstatements : ∃ b, g = .statements b
          · obtain ⟨b, rfl⟩ := hstatements
            exact h.statements hpaired
          · have hinner' : g.isInner = false := Bool.eq_false_iff.mpr hinner
            have hne : ∀ b, g ≠ .statements b := fun b hb => hstatements ⟨b, hb⟩
            refine of_balanced (act_ending hinner' hne hskip (hfits.pair hpaired)) (fun new hnew => ?_)
              (h.concluding.step (hne false))
            exact hnew.append h.ordered.tail (h.ordered.tolerant hinner')

theorem rebase (h : Settled origin goals s) : Settled s goals s :=
  ⟨h.fits.rebase, h.ordered, h.steady, h.concluding⟩

/-- A run returns, and the invariant holds of the empty agenda. -/
theorem run (h : Settled origin goals s) : Returns (Parse.run goals s) (Settled origin []) := by
  fun_induction Parse.run goals s with
  | case1 s => exact .ok h
  | case2 g goals s fault hact =>
      obtain ⟨a, ha, -⟩ := h.act
      rw [hact] at ha
      cases ha
  | case3 g goals s new t hact ih =>
      obtain ⟨a, ha, hsettled⟩ := h.act
      rw [hact] at ha
      cases ha
      exact ih hsettled

theorem start (limits : Limits) {tokens : List Token} (h : Paired tokens) :
    Settled (.start limits tokens) [.statements false] (.start limits tokens) where
  fits := ⟨.refl _, placed_start limits tokens, rfl, rfl, False.elim⟩
  ordered := ordered_singleton _
  steady := .inOrder h
  concluding := .inl ⟨[], rfl⟩

end Settled

end Steps

/-! ### Whole parses -/

/-- The agenda runs to its end. Then only the root is left, and if no limit was hit the source is at its end. -/
theorem run_start (limits : Limits) {tokens : List Token} (h : Paired tokens) :
    Returns (run [.statements false] (.start limits tokens)) fun s =>
      Reaches (.start limits tokens) s ∧ s.below = [] ∧ (s.isStopped = true ∨ s.atEnd = true) := by
  refine (Settled.start limits h).run.mono fun s hs => ⟨hs.fits.reached, ?_, ?_⟩
  · exact List.length_eq_zero_iff.mp hs.fits.height_eq
  · obtain ⟨front, hfront⟩ | ⟨-, hend⟩ := hs.concluding
    · exact absurd hfront.symm (List.append_ne_nil_of_right_ne_nil _ (List.cons_ne_nil _ _))
    · exact hend

/-- A parse has a root, or a limit was hit. -/
theorem ofTokens_eq (limits : Limits) {tokens : List Token} (h : Paired tokens) :
    ∃ s, run [.statements false] (.start limits tokens) = .ok s ∧ Reaches (.start limits tokens) s ∧ s.below = [] ∧
      ((∃ e, limits ≠ .none ∧ ofTokens limits tokens = .error (.limit e)) ∨
        s.stopped = none ∧ s.atEnd = true ∧ ofTokens limits tokens = .ok
          ⟨.node .root s.flush.top.children.reverse, s.diagnostics.reverse,
            if s.limits.tokens.isSome then s.consumed else 0⟩) := by
  obtain ⟨s, hrun, hreached, hbelow, hend⟩ := run_start limits h
  refine ⟨s, hrun, hreached, hbelow, ?_⟩
  have hof : ofTokens limits tokens = s.flush.result := by
    rw [ofTokens, hrun]
  cases hstopped : s.stopped with
  | some e =>
      have hflush : s.flush.stopped = some e := hstopped
      refine .inl ⟨e, fun hnone => ?_, ?_⟩
      · have hunlimited := hreached.unlimited ⟨hnone, rfl⟩
        rw [hunlimited.2] at hstopped
        cases hstopped
      · rw [hof, State.result, hflush]
  | none =>
      have hflush : s.flush.stopped = none := hstopped
      have hbelow' : s.flush.below = [] := hbelow
      have hkind : s.flush.top.kind = some .root := by
        have hbottom := hreached.kind_bottom
        rw [State.bottom, hbelow] at hbottom
        exact hbottom
      have hend' : s.atEnd = true := by
        rw [isStopped, hstopped] at hend
        simpa using hend
      refine .inr ⟨rfl, hend', ?_⟩
      rw [hof, State.result, hflush, hkind, hbelow']
      rfl

end Parse

theorem parse_returns (limits : Limits) (source : String) :
    (∃ p, parse limits source = .ok p) ∨ ∃ e, parse limits source = .error (.limit e) ∧ limits ≠ .none := by
  obtain ⟨s, -, -, -, ⟨e, hlimits, hparse⟩ | ⟨-, -, hparse⟩⟩ := Parse.ofTokens_eq limits (paired_lex source)
  · exact .inr ⟨e, hparse, hlimits⟩
  · exact .inl ⟨_, hparse⟩

end Transducer
