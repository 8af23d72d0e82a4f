import Transducer.Proofs.Parse.Astray
import Transducer.Proofs.Parse.Gaining

/-!
# A parse beside one of the source with a `;` more

A `;` is put between two tokens, and the two sources are parsed side by side. In front of the `;` both parses see the
same tokens, but for the token that follows the next one. Once all tokens in front of it are consumed they see different
tokens: the second parse sees the `;`, which continues nothing, so that it ends what it is reading. If the first parse
does not, it consumes the token it sees, and from then on it reports no `;` at the place. Otherwise both stay side by
side up to the end of a statement, where the first one reports that the `;` is missing and the second one consumes it.
-/

namespace Transducer

/-- What holds of the first result on its own may be all that is asked. -/
theorem Ensures.agree {ε α β : Type} {p : α → Prop} {R : α → β → Prop} {r : Except ε α} {r' : Except ε β}
    (h : Ensures r p) (himp : ∀ a b, p a → R a b) : Agree R r r' :=
  fun a b ha _ => himp a b (h a ha)

/-! ### Tokens in front of a place -/

namespace Token.EndsSignificant

variable {us : List Token}

/-- Trivia at the front are not all there is. -/
theorem split (h : EndsSignificant us) (hne : us ≠ []) :
    ∃ token us', us.dropWhile isTrivia = token :: us' ∧ EndsSignificant (token :: us') ∧ ∀ vs,
      (us ++ vs).dropWhile isTrivia = token :: (us' ++ vs) ∧ (us ++ vs).takeWhile isTrivia = us.takeWhile isTrivia := by
  induction us with
  | nil => exact absurd rfl hne
  | cons u us ih =>
      by_cases hu : u.isTrivia = true
      · have hus : us ≠ [] := by
          rintro rfl
          rw [h u rfl] at hu
          cases hu
        obtain ⟨token, us', hdrop, hsignificant, hsplit⟩ := ih h.tail hus
        refine ⟨token, us', ?_, hsignificant, fun vs => ?_⟩
        · rw [List.dropWhile_cons_of_pos hu, hdrop]
        · rw [List.cons_append, List.dropWhile_cons_of_pos hu, List.takeWhile_cons_of_pos hu,
            List.takeWhile_cons_of_pos hu]
          exact ⟨(hsplit vs).1, congrArg (u :: ·) (hsplit vs).2⟩
      · refine ⟨u, us, List.dropWhile_cons_of_neg hu, h, fun vs => ?_⟩
        rw [List.cons_append, List.dropWhile_cons_of_neg hu, List.takeWhile_cons_of_neg hu,
          List.takeWhile_cons_of_neg hu]
        exact ⟨rfl, rfl⟩

end Token.EndsSignificant

namespace Parse

open State

/-! ### States side by side -/

/-- The tokens `us` are in front of the place `o` and the tokens `vs` behind it, with a `;` between them in the second
parse. What has been built is the same. When all tokens in front are consumed, no trivia behind them is. -/
structure Abreast (o : Nat) (us vs : List Token) (s t : State) : Prop where
  rest_left : s.rest = us ++ vs
  rest_right : t.rest = us ++ .semicolon :: vs
  offset_eq : t.offset = s.offset
  lastEnd_eq : t.lastEnd = s.lastEnd
  top_eq : t.top = s.top
  below_eq : t.below = s.below
  delimiters_eq : s.delimiters.map Delimiter.kind = t.delimiters.map Delimiter.kind
  left : s.Unlimited
  right : t.Unlimited
  quiet_left : s.Reached o 0
  quiet_right : t.Reached o 0
  offset_add : s.offset + Token.totalWidth us = o
  significant : Token.EndsSignificant us
  here : us = [] → s.lastEnd = some o

namespace Abreast

variable {o : Nat} {us vs : List Token} {s t : State}

theorem reached_left (h : Abreast o [] vs s t) : s.Reached o o := by
  refine ⟨h.quiet_left.standing, h.quiet_left.unreported, ?_⟩
  rw [State.gap, h.here rfl]
  exact Nat.le_refl o

theorem reached_right (h : Abreast o [] vs s t) : t.Reached o o := by
  refine ⟨h.quiet_right.standing, h.quiet_right.unreported, ?_⟩
  rw [State.gap, h.lastEnd_eq, h.here rfl]
  exact Nat.le_refl o

theorem ahead_right (h : Abreast o [] vs s t) : t.ahead = .semicolon :: vs := by
  rw [State.ahead, h.rest_right]
  rfl

theorem current_right (h : Abreast o [] vs s t) : t.current = .semicolon := current_of_ahead h.ahead_right

/-- In front of the place both parses see the same token. -/
theorem ahead_cases (h : Abreast o us vs s t) (hne : us ≠ []) :
    ∃ token us', us.dropWhile Token.isTrivia = token :: us' ∧ s.ahead = token :: (us' ++ vs) ∧
      t.ahead = token :: (us' ++ .semicolon :: vs) ∧ t.trivia = s.trivia ∧ Token.EndsSignificant (token :: us') ∧
      s.offset + Token.totalWidth s.trivia + token.width + Token.totalWidth us' = o := by
  obtain ⟨token, us', hdrop, hsignificant, hsplit⟩ := h.significant.split hne
  obtain ⟨hleft, hleft'⟩ := hsplit vs
  obtain ⟨hright, hright'⟩ := hsplit (.semicolon :: vs)
  rw [← h.rest_left] at hleft hleft'
  rw [← h.rest_right] at hright hright'
  refine ⟨token, us', hdrop, hleft, hright, hright'.trans hleft'.symm, hsignificant, ?_⟩
  have htrivia : s.trivia = us.takeWhile Token.isTrivia := hleft'
  have hwidth := congrArg Token.totalWidth (List.takeWhile_append_dropWhile (p := Token.isTrivia) (l := us))
  rw [hdrop, Token.totalWidth_append, Token.totalWidth_cons] at hwidth
  have hoffset := h.offset_add
  rw [htrivia]
  omega

theorem current (h : Abreast o us vs s t) (hne : us ≠ []) : t.current = s.current := by
  obtain ⟨token, us', -, hs, ht, -⟩ := h.ahead_cases hne
  rw [current_of_ahead hs, current_of_ahead ht]

theorem currentText (h : Abreast o us vs s t) (hne : us ≠ []) : t.currentText = s.currentText := by
  obtain ⟨token, us', -, hs, ht, -⟩ := h.ahead_cases hne
  rw [State.currentText, State.currentText, hs, ht]

theorem atEnd (h : Abreast o us vs s t) (hne : us ≠ []) : s.atEnd = false ∧ t.atEnd = false := by
  obtain ⟨token, us', -, hs, ht, -⟩ := h.ahead_cases hne
  rw [State.atEnd, State.atEnd, hs, ht]
  exact ⟨rfl, rfl⟩

/-- Only the token behind the next one may differ, and then the next one ends at the place. -/
theorem isFollowedBy (h : Abreast o us vs s t) (hne : us ≠ []) {k : Kind} (hk : k ≠ .semicolon) :
    t.isFollowedBy k = s.isFollowedBy k ∨ t.isFollowedBy k = false ∧ s.currentSpan.stop = o := by
  obtain ⟨token, us', -, hs, ht, -, hsignificant, hwidth⟩ := h.ahead_cases hne
  have hspan : s.currentSpan.stop = s.offset + Token.totalWidth s.trivia + token.width := by
    simp only [State.currentSpan, hs]
  rw [State.isFollowedBy, State.isFollowedBy, hs, ht, List.drop_one, List.drop_one, List.tail_cons, List.tail_cons]
  by_cases hlast : us' = []
  · subst hlast
    refine .inr ⟨?_, hspan.trans hwidth⟩
    exact beq_eq_false_iff_ne.mpr (Ne.symm hk)
  · left
    obtain ⟨next, us'', -, -, hsplit⟩ := hsignificant.tail.split hlast
    rw [(hsplit vs).1, (hsplit _).1]

/-! ### Operations -/

theorem openTight (h : Abreast o us vs s t) (kind : Option Kind) :
    Abreast o us vs (s.openTight kind) (t.openTight kind) :=
  { h with
    top_eq := rfl
    below_eq := by rw [State.openTight, State.openTight, h.top_eq, h.below_eq]
    quiet_left := h.quiet_left.congr rfl
    quiet_right := h.quiet_right.congr rfl }

theorem wrap (h : Abreast o us vs s t) (kind : Kind) : Abreast o us vs (s.wrap kind) (t.wrap kind) :=
  { h with
    top_eq := by rw [State.wrap, State.wrap, h.top_eq]
    quiet_left := h.quiet_left.congr rfl
    quiet_right := h.quiet_right.congr rfl }

theorem closeNode (h : Abreast o us vs s t) : Agree (Abreast o us vs) s.closeNode t.closeNode := by
  intro s' t' hs ht
  obtain ⟨frame, below, hbelow, rfl⟩ := closeNode_eq_ok hs
  obtain ⟨frame', below', hbelow', rfl⟩ := closeNode_eq_ok ht
  obtain ⟨rfl, rfl⟩ := List.cons.inj (hbelow'.symm.trans (h.below_eq.trans hbelow))
  exact { h with
    top_eq := by rw [h.top_eq]
    below_eq := rfl
    quiet_left := h.quiet_left.congr rfl
    quiet_right := h.quiet_right.congr rfl }

theorem withDelimiters (h : Abreast o us vs s t) {ds ds' : List Delimiter}
    (hkinds : ds.map Delimiter.kind = ds'.map Delimiter.kind) :
    Abreast o us vs { s with delimiters := ds } { t with delimiters := ds' } :=
  { h with
    delimiters_eq := hkinds
    quiet_left := h.quiet_left.withDelimiters ds
    quiet_right := h.quiet_right.withDelimiters ds' }

/-- Errors that are not a missing `;` at the place do not count. -/
theorem claim (h : Abreast o us vs s t) {position position' : Nat} {r r' : Except Fault Diagnostic}
    (hr : Ensures r fun d => d.issue = .expectedSemicolon → d.span.start ≠ o)
    (hr' : Ensures r' fun d => d.issue = .expectedSemicolon → d.span.start ≠ o) :
    Agree (Abreast o us vs) (s.claim position r) (t.claim position' r') := by
  intro s' t' hs ht
  have hquiet := h.quiet_left.claim hr s' hs
  have hquiet' := h.quiet_right.claim hr' t' ht
  obtain ⟨rfl, -⟩ | ⟨d, -, -, rfl⟩ := claim_eq_ok hs
  all_goals
    obtain ⟨rfl, -⟩ | ⟨d', -, -, rfl⟩ := claim_eq_ok ht
    all_goals exact { h with quiet_left := hquiet, quiet_right := hquiet' }

theorem report (h : Abreast o us vs s t) {issue : Issue} (hissue : issue.isAtNext = true) (detail : String) :
    Agree (Abreast o us vs) (s.report issue detail) (t.report issue detail) :=
  h.claim ((claimsNext_report hissue detail).mono fun _ hd => hd.not_gap)
    ((claimsNext_report hissue detail).mono fun _ hd => hd.not_gap)

theorem flush (h : Abreast o us vs s t) (hne : us ≠ []) :
    us.dropWhile Token.isTrivia ≠ [] ∧ Abreast o (us.dropWhile Token.isTrivia) vs s.flush t.flush := by
  obtain ⟨token, us', hdrop, hs, ht, htrivia, hsignificant, hwidth⟩ := h.ahead_cases hne
  rw [hdrop]
  refine ⟨List.cons_ne_nil _ _, { h with
    rest_left := hs
    rest_right := ht
    offset_eq := ?_
    top_eq := ?_
    quiet_left := h.quiet_left.flush
    quiet_right := h.quiet_right.flush
    offset_add := ?_
    significant := hsignificant
    here := fun hnil => nomatch hnil }⟩
  · rw [State.flush, State.flush, h.offset_eq, htrivia]
  · rw [State.flush, State.flush, h.top_eq, htrivia]
  · simp only [State.flush, Token.totalWidth_cons]
    omega

theorem openNode (h : Abreast o us vs s t) (hne : us ≠ []) (kind : Kind) :
    us.dropWhile Token.isTrivia ≠ [] ∧
      Abreast o (us.dropWhile Token.isTrivia) vs (s.openNode kind) (t.openNode kind) :=
  ⟨(h.flush hne).1, (h.flush hne).2.openTight _⟩

theorem descend (h : Abreast o us vs s t) : Abreast o us vs s.descend t.descend := by
  rw [h.left.descend_eq, h.right.descend_eq]
  exact { h with quiet_left := h.quiet_left.congr rfl, quiet_right := h.quiet_right.congr rfl }

theorem ascend (h : Abreast o us vs s t) : Abreast o us vs s.ascend t.ascend :=
  { h with quiet_left := h.quiet_left.congr rfl, quiet_right := h.quiet_right.congr rfl }

theorem bump_before (h : Abreast o us vs s t) (hne : us ≠ []) :
    Agree (fun s' t' => ∃ us', Abreast o us' vs s' t') s.bump t.bump := by
  intro s' t' hs ht
  obtain ⟨token, us', -, hahead, hahead', htrivia, hsignificant, hwidth⟩ := h.ahead_cases hne
  have hleft := (Move.bumped hs).unlimited h.left
  have hright := (Move.bumped ht).unlimited h.right
  have hquiet := (h.quiet_left.bump s' hs).mono (Nat.zero_le 1)
  have hquiet' := (h.quiet_right.bump t' ht).mono (Nat.zero_le 1)
  obtain ⟨first, ts, hfirst, rfl⟩ := bump_eq_ok hs
  obtain ⟨first', ts', hfirst', rfl⟩ := bump_eq_ok ht
  obtain ⟨rfl, rfl⟩ := List.cons.inj (hfirst.symm.trans hahead)
  obtain ⟨rfl, rfl⟩ := List.cons.inj (hfirst'.symm.trans hahead')
  refine ⟨us', { h with
    rest_left := rfl
    rest_right := rfl
    offset_eq := ?_
    lastEnd_eq := ?_
    top_eq := ?_
    left := hleft
    right := hright
    quiet_left := hquiet
    quiet_right := hquiet'
    offset_add := hwidth
    significant := hsignificant.tail
    here := ?_ }⟩
  · rw [h.offset_eq, htrivia]
  · rw [h.offset_eq, htrivia]
  · rw [h.top_eq, htrivia]
  · rintro rfl
    exact congrArg some hwidth

end Abreast

/-- The first parse is past the place, or the parses are side by side. -/
def Keeps (o : Nat) (vs : List Token) (s t : State) : Prop := s.Reached o (o + 1) ∨ ∃ us, Abreast o us vs s t

variable {o : Nat} {us vs : List Token} {s t : State}

theorem agree_passed {r r' : Except Fault State} (h : Ensures r (Reached o (o + 1))) : Agree (Keeps o vs) r r' :=
  h.agree fun _ _ => .inl

namespace Abreast

theorem keeps (h : Abreast o us vs s t) : Keeps o vs s t := .inr ⟨us, h⟩

/-- A question about the next token that a `;` answers in the negative. If the first parse alone answers it in the
affirmative, it stands at the place. -/
theorem branch {α β : Type} {R : α → β → Prop} {x y : Except Fault α} {x' y' : Except Fault β} {f : Kind → Bool}
    (hf : f .semicolon = false) (h : Abreast o us vs s t) (hboth : us ≠ [] → f s.current = true → Agree R x x')
    (hfirst : s.Reached o o → f s.current = true → Agree R x y') (hnone : f s.current = false → Agree R y y') :
    Agree R (if f s.current then x else y) (if f t.current then x' else y') := by
  by_cases hne : us = []
  · subst hne
    rw [h.current_right, hf]
    cases hs : f s.current with
    | true => exact hfirst h.reached_left hs
    | false => exact hnone hs
  · rw [h.current hne]
    exact .branch rfl (hboth hne) hnone

theorem bump (h : Abreast o us vs s t) : Agree (Keeps o vs) s.bump t.bump := by
  by_cases hne : us = []
  · subst hne
    exact agree_passed h.reached_left.bump
  · exact (h.bump_before hne).mono fun _ _ => .inr

/-- A token of a known kind. -/
theorem bumpIf (h : Abreast o us vs s t) {k : Kind} (hk : k ≠ .semicolon) {r r' : Except Fault State}
    (hother : Agree (Keeps o vs) r r') :
    Agree (Keeps o vs) (if s.looksAt k then s.bump else r) (if t.looksAt k then t.bump else r') :=
  h.branch (f := (· == k)) (beq_eq_false_iff_ne.mpr hk.symm) (fun _ _ => h.bump)
    (fun hreached _ => agree_passed hreached.bump) fun _ => hother

theorem closeDelimiter (h : Abreast o us vs s t) {closer : Kind} (hcloser : closer ≠ .semicolon) (construct : String) :
    Agree (Keeps o vs) (s.closeDelimiter closer construct) (t.closeDelimiter closer construct) := by
  have hissue : (unclosed closer).1 ≠ .expectedSemicolon := by
    unfold unclosed
    split <;> decide
  have hkinds := h.delimiters_eq
  unfold State.closeDelimiter
  cases hs : s.delimiters with
  | nil =>
      rw [hs] at hkinds
      rw [List.map_eq_nil_iff.mp hkinds.symm]
      exact h.bumpIf hcloser (.ok h.keeps)
  | cons d ds =>
      rw [hs] at hkinds
      obtain ⟨d', ds', ht, hkind, hkinds⟩ := List.map_eq_cons_iff.mp hkinds.symm
      rw [ht]
      have hforgot := h.withDelimiters hkinds.symm
      dsimp only
      rw [hkind]
      refine .ite Iff.rfl (hforgot.bumpIf hcloser ?_) (fun _ _ hfault => nomatch hfault)
      refine (hforgot.claim ?_ ?_).mono fun _ _ h => h.keeps
      all_goals exact .after fun _ => .ok fun heq => absurd heq hissue

end Abreast

namespace Keeps

theorem openTight (h : Keeps o vs s t) (kind : Option Kind) : Keeps o vs (s.openTight kind) (t.openTight kind) :=
  h.imp (fun hpast => hpast.congr rfl) fun ⟨us, h⟩ => ⟨us, h.openTight kind⟩

theorem closeNode (h : Keeps o vs s t) : Agree (Keeps o vs) s.closeNode t.closeNode := by
  obtain hpast | ⟨us, h⟩ := h
  · exact agree_passed ((watched_passed o).closeNode hpast)
  · exact h.closeNode.mono fun _ _ h => h.keeps

theorem bump (h : Keeps o vs s t) : Agree (Keeps o vs) s.bump t.bump := by
  obtain hpast | ⟨us, h⟩ := h
  · exact agree_passed ((watched_passed o).bump hpast)
  · exact h.bump

theorem skipOne (h : Keeps o vs s t) {k : Kind} (hk : k ≠ .semicolon) :
    Agree (Keeps o vs) (s.skipOne k) (t.skipOne k) := by
  obtain hpast | ⟨us, h⟩ := h
  · exact agree_passed ((watched_passed o).skipOne hpast k)
  · exact h.bumpIf hk (.ok h.keeps)

theorem report (h : Keeps o vs s t) {issue : Issue} (hissue : issue.isAtNext = true) (detail : String) :
    Agree (Keeps o vs) (s.report issue detail) (t.report issue detail) := by
  obtain hpast | ⟨us, h⟩ := h
  · exact agree_passed ((watched_passed o).report hpast hissue detail)
  · exact (h.report hissue detail).mono fun _ _ h => h.keeps

theorem expect (h : Keeps o vs s t) {k : Kind} (hk : k ≠ .semicolon) {issue : Issue} (hissue : issue.isAtNext = true)
    (detail : String) : Agree (Keeps o vs) (s.expect k issue detail) (t.expect k issue detail) := by
  obtain hpast | ⟨us, h⟩ := h
  · exact agree_passed (ensures_passed ((bisimulation_passed o).expect ⟨rfl, hpast⟩ hk hissue detail))
  · exact h.bumpIf hk (h.keeps.report hissue detail)

theorem openDelimiter (h : Keeps o vs s t) (k : Kind) : Agree (Keeps o vs) (s.openDelimiter k) (t.openDelimiter k) := by
  obtain hpast | ⟨us, h⟩ := h
  · exact agree_passed ((watched_passed o).openDelimiter hpast k)
  · have hkinds : (⟨k, s.currentSpan⟩ :: s.delimiters).map Delimiter.kind =
        (⟨k, t.currentSpan⟩ :: t.delimiters).map Delimiter.kind := congrArg (k :: ·) h.delimiters_eq
    exact .check (h.withDelimiters hkinds).bump

theorem closeDelimiter (h : Keeps o vs s t) {closer : Kind} (hcloser : closer ≠ .semicolon) (construct : String) :
    Agree (Keeps o vs) (s.closeDelimiter closer construct) (t.closeDelimiter closer construct) := by
  obtain hpast | ⟨us, h⟩ := h
  · exact agree_passed ((watched_passed o).closeDelimiter hpast closer construct)
  · exact h.closeDelimiter hcloser construct

/-- A closing delimiter that is the last token of its node. -/
theorem closeDelimited (h : Keeps o vs s t) {closer : Kind} (hcloser : closer ≠ .semicolon) (construct : String) :
    Agree (Keeps o vs) (do (← s.closeDelimiter closer construct).closeNode)
      (do (← t.closeDelimiter closer construct).closeNode) :=
  (h.closeDelimiter hcloser construct).bind fun _ _ h => h.closeNode

end Keeps

/-! ### Steps -/

/-- The first parse has gone astray, or both parses leave the same goals over and are side by side; or the `;` has been
consumed by the second parse, which is past the place with it. -/
def StepKeeps (o : Nat) (vs : List Token) (following : List Goal) (p q : List Goal × State) : Prop :=
  Astray o (p.1 ++ following) p.2 ∨
    p.1 = q.1 ∧ ((∃ us, Abreast o us vs p.2 q.2) ∨ Gained p.2 q.2 ∧ q.2.Reached o (o + 1))

variable {following : List Goal}

theorem StepKeeps.append {next : List Goal} {p q : List Goal × State} (h : StepKeeps o vs (next ++ following) p q) :
    StepKeeps o vs following (p.1 ++ next, p.2) (q.1 ++ next, q.2) := by
  refine h.imp (fun hastray => ?_) fun ⟨hgoals, hstates⟩ => ⟨congrArg (· ++ next) hgoals, hstates⟩
  rwa [List.append_assoc]

theorem agree_leaving_keeps {r r' : Except Fault State} (h : Agree (Keeps o vs) r r') (goals : List Goal) :
    Agree (StepKeeps o vs following) (leaving goals r) (leaving goals r') :=
  h.map fun _ _ h => h.imp (fun hpast => .inl hpast.sidelined) fun h => ⟨rfl, .inl h⟩

theorem agree_done_keeps {r r' : Except Fault State} (h : Agree (Keeps o vs) r r') :
    Agree (StepKeeps o vs following) (done r) (done r') :=
  agree_leaving_keeps h []

theorem Abreast.agree_step (h : Abreast o us vs s t) (goals : List Goal) :
    Agree (StepKeeps o vs following) (.ok (goals, s) : Step) (.ok (goals, t) : Step) :=
  .ok (.inr ⟨rfl, .inl ⟨us, h⟩⟩)

theorem agree_step_passed {r r' : Step} (h : Ensures r fun a => a.2.Reached o (o + 1)) :
    Agree (StepKeeps o vs following) r r' :=
  h.agree fun _ _ hpast => .inl (.inl hpast.sidelined)

theorem agree_step_astray {r r' : Step} (h : Ensures r fun a => Astray o (a.1 ++ following) a.2) :
    Agree (StepKeeps o vs following) r r' :=
  h.agree fun _ _ => .inl

/-- Past the place every step stays there. -/
theorem agree_step_of_passed {ready : List Goal} {r r' : Step}
    (h : Agree (StepRel (fun _ s t => s = t ∧ s.Reached o (o + 1)) ready) r r) :
    Agree (StepKeeps o vs following) r r' :=
  agree_step_passed (Watched.ensures_of_agree h)

/-! ### Expressions -/

namespace Keeps

theorem nestedExpression (h : Keeps o vs s t) (opener : String) {next : Goal} (hnext : next.isPlain = true) :
    Agree (StepKeeps o vs following) (Parse.nestedExpression s opener next) (Parse.nestedExpression t opener next) := by
  obtain hpast | ⟨us, h⟩ := h
  · exact agree_step_of_passed ((bisimulation_passed o).nestedExpression ⟨rfl, hpast⟩ opener hnext)
  · refine h.branch (f := KindSet.exprFirst.contains) (by decide) (fun _ _ => ?_) (fun hreached _ => ?_) fun _ => ?_
    · exact h.agree_step _
    · exact agree_step_astray (.ok (.inr ⟨hreached, .inl rfl⟩))
    · exact agree_leaving_keeps (h.keeps.report rfl _) [next]

theorem endArguments (h : Keeps o vs s t) : Agree (Keeps o vs) (Parse.endArguments s) (Parse.endArguments t) :=
  (h.closeDelimiter (by decide) _).bind fun _ _ h => h.closeNode.bind fun _ _ h => h.closeNode

end Keeps

namespace Abreast

theorem call (h : Abreast o us vs s t) (hne : us ≠ []) :
    Agree (StepKeeps o vs following) (Parse.call s) (Parse.call t) := by
  refine (h.openNode hne .call).2.bump.bind fun _ _ h => ((h.openTight _).openDelimiter _).bind fun u v huv => ?_
  obtain hpast | ⟨us, h⟩ := huv
  · exact agree_step_passed hpast.firstArgument
  · refine h.branch (f := (· == .bracketClose)) rfl (fun _ _ => ?_) (fun hreached hlooks => agree_step_passed ?_)
      fun _ => h.keeps.nestedExpression "[" rfl
    · exact agree_done_keeps h.keeps.endArguments
    · refine Ensures.map (p := Reached o (o + 1)) ?_ fun _ ht => ht
      refine (hreached.closeDelimiter_of_looksAt hlooks _).bind fun _ ht => ?_
      exact ((watched_passed o).closeNode ht).bind fun _ ht => (watched_passed o).closeNode ht

theorem string (h : Abreast o us vs s t) (hne : us ≠ []) : Agree (Keeps o vs) (Parse.string s) (Parse.string t) := by
  unfold Parse.string
  rw [h.current hne]
  refine (h.openNode hne .str).2.bump.bind fun _ _ h => (h.skipOne (by decide)).bind fun _ _ h => .check ?_
  exact h.bump.bind fun _ _ h => h.closeNode

theorem leafNode (h : Abreast o us vs s t) (hne : us ≠ []) (kind : Kind) :
    Agree (Keeps o vs) (do (← (s.openNode kind).bump).closeNode) (do (← (t.openNode kind).bump).closeNode) :=
  (h.openNode hne kind).2.bump.bind fun _ _ h => h.closeNode

theorem unterminatedString (h : Abreast o us vs s t) (hne : us ≠ []) :
    Agree (Keeps o vs) s.unterminatedString t.unterminatedString := by
  refine (h.claim ?_ ?_).bind fun _ _ h => h.leafNode hne .error
  · exact (claimsNext_unterminated _).mono fun _ hd => hd.not_gap
  · exact (claimsNext_unterminated _).mono fun _ hd => hd.not_gap

theorem group (h : Abreast o us vs s t) (hne : us ≠ []) :
    Agree (StepKeeps o vs following) (Parse.group s) (Parse.group t) :=
  ((h.openNode hne .nested).2.keeps.openDelimiter _).bind fun _ _ h => h.nestedExpression "(" rfl

/-- A name that ends at the place may be called in the first parse alone. -/
theorem atom (h : Abreast o us vs s t) (hne : us ≠ []) (hfirst : s.looksAtAny .exprFirst = true) :
    Agree (StepKeeps o vs following) (Parse.atom s) (Parse.atom t) := by
  have hcurrent := h.current hne
  obtain hk | hk | hk | hk | hk := current_of_exprFirst hfirst
  all_goals
    rw [hk] at hcurrent
    simp only [Parse.atom, hk, hcurrent]
  · have hreference : Agree (StepKeeps o vs following) (done (reference s)) (done (reference t)) :=
      agree_done_keeps (h.leafNode hne .ref)
    obtain hsame | ⟨hright, hstop⟩ := h.isFollowedBy hne (k := .bracketOpen) (by decide)
    · exact .branch hsame.symm (fun _ => h.call hne) fun _ => hreference
    · rw [hright]
      split
      · exact agree_step_passed (h.quiet_left.call_of_stop hstop)
      · exact hreference
  · exact agree_done_keeps (h.string hne)
  · exact agree_done_keeps (h.string hne)
  · exact agree_done_keeps (h.unterminatedString hne)
  · exact h.group hne

theorem marks (h : Abreast o us vs s t) (hne : us ≠ []) (strengths : List Strength) :
    ∃ us', us' ≠ [] ∧
      Abreast o us' vs (strengths.foldl (fun s _ => s.mark) s) (strengths.foldl (fun s _ => s.mark) t) := by
  induction strengths generalizing us s t with
  | nil => exact ⟨us, hne, h⟩
  | cons strength strengths ih => exact ih (s := s.mark) ((h.flush hne).2.openTight none) (h.flush hne).1

theorem operand (h : Abreast o us vs s t) (hne : us ≠ []) (hfirst : s.looksAtAny .exprFirst = true)
    (strength : Strength) (next : List Goal) :
    Agree (StepKeeps o vs following) (Parse.operand strength next s) (Parse.operand strength next t) := by
  have hmarked : (strength.upTo.foldl (fun s _ => s.mark) s).looksAtAny .exprFirst = true := by
    rw [State.looksAtAny, current_congr (ahead_marks strength.upTo s)]
    exact hfirst
  obtain ⟨us', hne', h⟩ := h.marks hne strength.upTo
  have hatom : Agree (StepKeeps o vs (strength.upTo.map .suffixOf ++ next ++ following)) _ _ := h.atom hne' hmarked
  refine hatom.bind fun p q hpq => ?_
  have happended := hpq.append
  rw [← List.append_assoc, ← List.append_assoc] at happended
  exact .ok happended

end Abreast

namespace Keeps

theorem operandAfter (h : Keeps o vs s t) (operator : String) (strength : Strength) {next : List Goal}
    (hnext : ∀ g ∈ next, g.isPlain = true) :
    Agree (StepKeeps o vs following) (Parse.operandAfter operator strength next s)
      (Parse.operandAfter operator strength next t) := by
  obtain hpast | ⟨us, h⟩ := h
  · exact agree_step_of_passed ((bisimulation_passed o).operandAfter ⟨rfl, hpast⟩ operator strength hnext)
  · refine h.branch (f := KindSet.exprFirst.contains) (by decide) (fun hne hfirst => ?_) (fun hreached hfirst => ?_)
      fun _ => agree_leaving_keeps (h.keeps.report rfl _) next
    · exact h.operand hne hfirst strength next
    · exact agree_step_passed (hreached.operand hfirst strength next)

theorem bound (h : Keeps o vs s t) : Agree (Keeps o vs) (Parse.bound s) (Parse.bound t) := by
  obtain hpast | ⟨us, h⟩ := h
  · exact agree_passed (ensures_passed ((bisimulation_passed o).bound ⟨rfl, hpast⟩))
  · refine h.branch (f := (· == .number)) rfl (fun hne _ => ?_) (fun hreached _ => ?_) fun _ => h.keeps.report rfl _
    · refine Agree.bind (R := Abreast o us vs) ?_ fun _ _ h => h.bump
      unfold checkBound
      rw [h.currentText hne]
      exact .ite Iff.rfl (h.report rfl _) (.ok h)
    · refine agree_passed (Ensures.bind (p := Reached o o) ?_ fun _ ht => ht.bump)
      unfold checkBound
      split
      · exact (watched_reached o o).report hreached rfl _
      · exact .ok hreached

theorem upperBound (h : Keeps o vs s t) : Agree (Keeps o vs) (Parse.upperBound s) (Parse.upperBound t) := by
  obtain hpast | ⟨us, h⟩ := h
  · exact agree_passed hpast.upperBound
  · refine h.branch (f := (· == .comma)) rfl (fun _ _ => ?_) (fun hreached _ => ?_) fun _ => .ok h.keeps
    · exact h.bump.bind fun _ _ h => h.bound
    · exact agree_passed (hreached.bump.bind fun _ ht => ht.bound)

end Keeps

namespace Abreast

theorem bounds (h : Abreast o us vs s t) : Agree (Keeps o vs) (Parse.bounds s) (Parse.bounds t) := by
  refine ((h.wrap .repetition).keeps.openDelimiter _).bind fun _ _ h => h.bound.bind fun _ _ h => ?_
  exact h.upperBound.bind fun _ _ h => h.closeDelimiter (by decide) _

theorem weightValue (h : Abreast o us vs s t) : Agree (Keeps o vs) (Parse.weightValue s) (Parse.weightValue t) := by
  refine (h.wrap .weight).bump.bind fun _ _ h => (h.expect (by decide) rfl _).bind fun _ _ h => ?_
  exact h.expect (by decide) rfl _

/-- An operator of a known kind with what follows it, or else the end of the operand. -/
theorem operatorOr (h : Abreast o us vs s t) {f : Kind → Bool} (hf : f .semicolon = false)
    {x x' : Step} (hboth : Agree (StepKeeps o vs following) x x')
    (hfirst : s.Reached o o → Ensures x fun a => a.2.Reached o (o + 1)) :
    Agree (StepKeeps o vs following) (if f s.current then x else done s.closeNode)
      (if f t.current then x' else done t.closeNode) :=
  h.branch hf (fun _ _ => hboth) (fun hreached _ => agree_step_passed (hfirst hreached))
    fun _ => agree_done_keeps h.keeps.closeNode

theorem operatorThen (h : Abreast o us vs s t) (node : Kind) (operator : String) (strength : Strength)
    {next : List Goal} (hnext : ∀ g ∈ next, g.isPlain = true) :
    Agree (StepKeeps o vs following) (do Parse.operandAfter operator strength next (← (s.wrap node).bump))
      (do Parse.operandAfter operator strength next (← (t.wrap node).bump)) :=
  (h.wrap node).bump.bind fun _ _ h => h.operandAfter operator strength hnext

theorem chainLink (h : Abreast o us vs s t) (k node : Kind) (hk : k ≠ .semicolon) (operator : String)
    (strength tighter : Strength) :
    Agree (StepKeeps o vs following)
      (if s.looksAt k then Parse.chainLink node operator strength tighter s else done s.closeNode)
      (if t.looksAt k then Parse.chainLink node operator strength tighter t else done t.closeNode) :=
  have hnext : ∀ g ∈ [Goal.suffixOf strength], g.isPlain = true := List.forall_mem_singleton.mpr rfl
  h.operatorOr (f := (· == k)) (beq_eq_false_iff_ne.mpr hk.symm) (h.operatorThen node operator tighter hnext)
    fun hreached => hreached.operatorThen node operator tighter hnext

/-! ### A name before `=` -/

theorem isFollowedBy_equals (h : Abreast o us vs s t) (hne : us ≠ []) (hid : s.current = .id)
    (hnot : ¬ Sidelined o s) : t.isFollowedBy .equals = s.isFollowedBy .equals := by
  obtain hsame | ⟨hright, hstop⟩ := h.isFollowedBy hne (k := .equals) (by decide)
  · exact hsame
  · cases hleft : s.isFollowedBy .equals with
    | false => exact hright
    | true => exact absurd ⟨h.quiet_left.standing, h.quiet_left.unreported, .inl ⟨hid, hstop, hleft⟩⟩ hnot

theorem atOperand (h : Abreast o us vs s t) (hne : us ≠ []) (hnot : ¬ Sidelined o s) : t.atOperand = s.atOperand := by
  unfold State.atOperand State.looksAtAny
  rw [h.current hne]
  by_cases hid : s.current = .id
  · rw [h.isFollowedBy_equals hne hid hnot]
  · rw [beq_eq_false_iff_ne.mpr hid]
    rfl

theorem atBoundary (h : Abreast o us vs s t) (hne : us ≠ []) (hnot : s.current = .id → ¬ Sidelined o s) :
    t.atBoundary = s.atBoundary := by
  unfold State.atBoundary
  rw [h.current hne]
  split
  · rename_i hid
    exact h.isFollowedBy_equals hne hid (hnot hid)
  · rfl

theorem atEnd_or_atBoundary (h : Abreast o us vs s t) (hne : us ≠ []) (hnot : s.current = .id → ¬ Sidelined o s) :
    (t.atEnd || t.atBoundary) = (s.atEnd || s.atBoundary) := by
  rw [(h.atEnd hne).1, (h.atEnd hne).2, h.atBoundary hne hnot]

theorem atBoundary_right (h : Abreast o [] vs s t) : t.atBoundary = true := by
  rw [State.atBoundary, h.current_right]
  rfl

/-! ### Goals inside a statement -/

theorem concat (h : Abreast o us vs s t) (hnot : ¬ Sidelined o s) :
    Agree (StepKeeps o vs following) (Parse.suffixStep .concat s) (Parse.suffixStep .concat t) := by
  have hnone : Agree (StepKeeps o vs following) (done s.closeNode) (done t.closeNode) :=
    agree_done_keeps h.keeps.closeNode
  by_cases hne : us = []
  · subst hne
    have hright : t.atOperand = false := by
      rw [State.atOperand, State.looksAtAny, h.current_right]
      rfl
    simp only [Parse.suffixStep, hright, Bool.false_eq_true, if_false]
    split
    · rename_i hoperand
      refine agree_step_passed ((h.reached_left.wrap .concat).operand ?_ _ _)
      exact (Bool.and_eq_true_iff.mp hoperand).1
    · exact hnone
  · refine .branch (h.atOperand hne hnot).symm (fun hoperand => ?_) fun _ => hnone
    exact (h.wrap .concat).operand hne (Bool.and_eq_true_iff.mp hoperand).1 _ _

theorem suffixStep (h : Abreast o us vs s t) (hnot : ¬ Sidelined o s) (strength : Strength) :
    Agree (StepKeeps o vs following) (Parse.suffixStep strength s) (Parse.suffixStep strength t) := by
  have hdone {x : Except Fault State} (hx : Ensures x (Reached o (o + 1))) :
      Ensures (done do (← x).closeNode) fun a => a.2.Reached o (o + 1) :=
    (hx.bind fun _ ht => (watched_passed o).closeNode ht).map fun _ ht => ht
  cases strength with
  | closure =>
      refine h.operatorOr (f := KindSet.closures.contains) (by decide) (agree_done_keeps ?_)
        fun hreached => hdone (hreached.wrap .closure).bump
      exact (h.wrap .closure).bump.bind fun _ _ h => h.closeNode
  | repetition =>
      refine h.operatorOr (f := (· == .braceOpen)) rfl (agree_done_keeps ?_) fun hreached => hdone hreached.bounds
      exact h.bounds.bind fun _ _ h => h.closeNode
  | weight =>
      refine h.operatorOr (f := (· == .angleOpen)) rfl (agree_done_keeps ?_) fun hreached => hdone hreached.weightValue
      exact h.weightValue.bind fun _ _ h => h.closeNode
  | output =>
      have hnext : ∀ g ∈ [Goal.endOutput], g.isPlain = true := List.forall_mem_singleton.mpr rfl
      exact h.operatorOr (f := (· == .colon)) rfl (h.operatorThen .output ":" .weight hnext)
        fun hreached => hreached.operatorThen .output ":" .weight hnext
  | concat => exact h.concat hnot
  | diff => exact h.chainLink .minus .diff (by decide) "-" .diff .concat
  | union => exact h.chainLink .pipe .union (by decide) "|" .union .diff
  | compose => exact h.chainLink .atSign .compose (by decide) "@" .compose .union

theorem moreArguments (h : Abreast o us vs s t) :
    Agree (StepKeeps o vs following) (Parse.moreArguments s) (Parse.moreArguments t) := by
  refine h.branch (f := (· == .comma)) rfl (fun _ _ => ?_) (fun hreached _ => ?_)
    fun _ => agree_done_keeps h.keeps.endArguments
  · exact h.bump.bind fun _ _ h => h.nestedExpression "," rfl
  · refine agree_step_passed (hreached.bump.bind fun _ ht => ?_)
    exact Watched.ensures_of_agree ((bisimulation_passed o).nestedExpression ⟨rfl, ht⟩ "," rfl)

end Abreast

end Parse

end Transducer
