import Transducer.Proofs.Parse.Exact
import Transducer.Proofs.Parse.Simulation
import Transducer.Proofs.Parse.Totality
import Transducer.Proofs.Token.Splitting

/-!
# Recovery ends with the statement

A source that ends in a `;` and defines no functions is parsed side by side with the same source in front of another
one. Up to the last `;` the two parses see the same tokens. What was read before it may be broken in any way, but once
it is consumed no statement is open any more: at most its own node is, and nothing is skipped beyond the start of the
next statement. From there on the second parse goes side by side with one of the other source, on top of the trees that
have been built.
-/

namespace Transducer.Parse

open State

/-! ### States side by side -/

/-- Frames on top of trees that the lowest one holds already. -/
def onTop (base : List Tree) : List Frame → List Frame
  | [] => []
  | frame :: below =>
      ⟨frame.kind, if below.isEmpty then frame.children ++ base else frame.children⟩ :: onTop base below

/-- Trees that go into the highest frame. -/
theorem onTop_push (base trees : List Tree) (frame : Frame) (below : List Frame) :
    onTop base (⟨frame.kind, trees ++ frame.children⟩ :: below) =
      ⟨frame.kind, trees ++ if below.isEmpty then frame.children ++ base else frame.children⟩ :: onTop base below := by
  rw [onTop]
  dsimp only
  split
  · rw [List.append_assoc]
  · rfl

/-- The second parse has the tokens `us` behind those of the first one and the trees `base` below what the first one has
built. Neither has a limit. -/
structure Alongside (base : List Tree) (us : List Token) (s t : State) : Prop where
  rest_eq : t.rest = s.rest ++ us
  frames_eq : t.top :: t.below = onTop base (s.top :: s.below)
  delimiters_eq : s.delimiters.map Delimiter.kind = t.delimiters.map Delimiter.kind
  left : s.Unlimited
  right : t.Unlimited

namespace Alongside

variable {base : List Tree} {us : List Token} {s t : State}

theorem top_eq (h : Alongside base us s t) :
    t.top = ⟨s.top.kind, if s.below.isEmpty then s.top.children ++ base else s.top.children⟩ :=
  (List.cons.inj h.frames_eq).1

theorem below_eq (h : Alongside base us s t) : t.below = onTop base s.below := (List.cons.inj h.frames_eq).2

theorem openTight (h : Alongside base us s t) (kind : Option Kind) :
    Alongside base us (s.openTight kind) (t.openTight kind) :=
  ⟨h.rest_eq, congrArg (⟨kind, []⟩ :: ·) h.frames_eq, h.delimiters_eq, h.left, h.right⟩

theorem wrap (h : Alongside base us s t) (kind : Kind) : Alongside base us (s.wrap kind) (t.wrap kind) := by
  refine ⟨h.rest_eq, ?_, h.delimiters_eq, h.left, h.right⟩
  have htop : (t.wrap kind).top = ⟨some kind, t.top.children⟩ := rfl
  rw [htop, h.top_eq]
  exact congrArg (_ :: ·) h.below_eq

theorem closeNode (h : Alongside base us s t) : Agree (Alongside base us) s.closeNode t.closeNode := by
  intro s' t' hs ht
  obtain ⟨frame, below, hbelow, rfl⟩ := closeNode_eq_ok hs
  obtain ⟨frame', below', hbelow', rfl⟩ := closeNode_eq_ok ht
  have htop := h.top_eq
  have hframes := h.below_eq
  rw [hbelow] at htop
  rw [hbelow, hbelow', onTop] at hframes
  obtain ⟨rfl, rfl⟩ := List.cons.inj hframes
  refine ⟨h.rest_eq, ?_, h.delimiters_eq, h.left, h.right⟩
  rw [htop]
  dsimp only [List.isEmpty_cons]
  cases s.top.kind with
  | none => exact (onTop_push base s.top.children frame below).symm
  | some kind => exact (onTop_push base [.node kind s.top.children.reverse] frame below).symm

theorem claim (h : Alongside base us s t) {position position' : Nat} {report report' : Except Fault Diagnostic} :
    Agree (Alongside base us) (s.claim position report) (t.claim position' report') := by
  intro s' t' hs ht
  obtain ⟨rfl, -⟩ | ⟨d, -, -, rfl⟩ := claim_eq_ok hs
  all_goals
    obtain ⟨rfl, -⟩ | ⟨d', -, -, rfl⟩ := claim_eq_ok ht
    all_goals exact ⟨h.rest_eq, h.frames_eq, h.delimiters_eq, h.left, h.right⟩

end Alongside

/-! ### What both parses see -/

/-- The last `;` of the first parse is still to come, unless nothing is behind it in the second parse. -/
structure Before (base : List Tree) (us : List Token) (s t : State) : Prop extends Alongside base us s t where
  covered : us = [] ∨ Token.EndsStatement s.rest

/-- The last `;` of the first parse may have been consumed. -/
structure Behind (base : List Tree) (us : List Token) (s t : State) : Prop extends Alongside base us s t where
  covered : us = [] ∨ s.rest = [] ∨ Token.EndsStatement s.rest

namespace Before

variable {base : List Tree} {us : List Token} {s t : State}

theorem trivia_eq (h : Before base us s t) : t.trivia = s.trivia := by
  rw [trivia, trivia, h.rest_eq]
  obtain rfl | hends := h.covered
  · rw [List.append_nil]
  · exact hends.takeTrivia_append us

theorem ahead_eq (h : Before base us s t) : t.ahead = s.ahead ++ us := by
  rw [ahead, ahead, h.rest_eq]
  obtain rfl | hends := h.covered
  · rw [List.append_nil, List.append_nil]
  · exact hends.dropTrivia_append us

/-- The next token of both parses. -/
theorem ahead_cases (h : Before base us s t) :
    us = [] ∨ ∃ token ts, s.ahead = token :: ts ∧ t.ahead = token :: (ts ++ us) ∧
      Token.EndsStatement (token :: ts) := by
  refine h.covered.imp_right fun hends => ?_
  have hahead := h.ahead_eq
  have hends' : Token.EndsStatement s.ahead := hends.dropTrivia
  cases hs : s.ahead with
  | nil =>
      rw [hs] at hends'
      exact absurd hends' Token.not_endsStatement_nil
  | cons token ts =>
      rw [hs] at hahead hends'
      exact ⟨token, ts, rfl, hahead, hends'⟩

theorem ahead_eq_of_nil (h : Before base [] s t) : t.ahead = s.ahead := h.ahead_eq.trans (List.append_nil _)

theorem current (h : Before base us s t) : s.current = t.current := by
  obtain rfl | ⟨token, ts, hs, ht, -⟩ := h.ahead_cases
  · rw [State.current, State.current, h.ahead_eq_of_nil]
  · rw [current_of_ahead hs, current_of_ahead ht]

theorem currentText (h : Before base us s t) : s.currentText = t.currentText := by
  obtain rfl | ⟨token, ts, hs, ht, -⟩ := h.ahead_cases
  · rw [State.currentText, State.currentText, h.ahead_eq_of_nil]
  · rw [State.currentText, State.currentText, hs, ht]

theorem atEnd (h : Before base us s t) : s.atEnd = t.atEnd := by
  obtain rfl | ⟨token, ts, hs, ht, -⟩ := h.ahead_cases
  · rw [State.atEnd, State.atEnd, h.ahead_eq_of_nil]
  · rw [State.atEnd, State.atEnd, hs, ht]
    rfl

theorem isFollowedBy (h : Before base us s t) (hid : s.current = .id) (k : Kind) :
    s.isFollowedBy k = t.isFollowedBy k := by
  obtain rfl | ⟨token, ts, hs, ht, hends⟩ := h.ahead_cases
  · rw [State.isFollowedBy, State.isFollowedBy, h.ahead_eq_of_nil]
  · obtain ⟨-, hlast⟩ | hts := hends.of_cons
    · rw [current_of_ahead hs, hlast] at hid
      cases hid
    · rw [State.isFollowedBy, State.isFollowedBy, hs, ht, List.drop_one, List.drop_one, List.tail_cons, List.tail_cons,
        hts.dropTrivia_append us]
      cases hrest : ts.dropWhile Token.isTrivia with
      | nil => exact absurd (hrest ▸ hts.dropTrivia) Token.not_endsStatement_nil
      | cons next rest => rfl

theorem flush (h : Before base us s t) : Before base us s.flush t.flush := by
  refine ⟨⟨h.ahead_eq, ?_, h.delimiters_eq, h.left, h.right⟩, h.covered.imp_right Token.EndsStatement.dropTrivia⟩
  have htop : t.flush.top = ⟨t.top.kind, (s.trivia.map Tree.leaf).reverse ++ t.top.children⟩ := by
    rw [← h.trivia_eq]
    rfl
  rw [htop, h.top_eq]
  exact (congrArg (_ :: ·) h.below_eq).trans (onTop_push base _ s.top s.below).symm

/-- Only a `;` can be the last token that both parses see. -/
theorem bump_cases (h : Before base us s t) :
    Agree (fun s' t' => Alongside base us s' t' ∧
      (us = [] ∨ Token.EndsStatement s'.rest ∨ s'.rest = [] ∧ s.current = .semicolon)) s.bump t.bump := by
  intro s' t' hs ht
  have hleft := (Move.bumped hs).unlimited h.left
  have hright := (Move.bumped ht).unlimited h.right
  obtain ⟨token, ts, hahead, rfl⟩ := bump_eq_ok hs
  obtain ⟨token', ts', hahead', rfl⟩ := bump_eq_ok ht
  have hsame := h.ahead_eq
  rw [hahead, hahead'] at hsame
  obtain ⟨rfl, rfl⟩ := List.cons.inj hsame
  refine ⟨⟨rfl, ?_, h.delimiters_eq, hleft, hright⟩, ?_⟩
  · have hpush := onTop_push base (.leaf token' :: (s.trivia.map Tree.leaf).reverse) s.top s.below
    rw [h.trivia_eq, h.top_eq]
    exact (congrArg (_ :: ·) h.below_eq).trans hpush.symm
  · refine h.covered.imp_right fun hends => ?_
    have hends' : Token.EndsStatement s.ahead := hends.dropTrivia
    rw [hahead] at hends'
    obtain ⟨hnil, hlast⟩ | hrest := hends'.of_cons
    · exact .inr ⟨hnil, by rw [current_of_ahead hahead, hlast]⟩
    · exact .inl hrest

end Before

theorem ensures_rest_closeNode (s : State) : Ensures s.closeNode fun u => u.rest = s.rest := by
  intro u hu
  obtain ⟨frame, below, -, rfl⟩ := closeNode_eq_ok hu
  rfl

theorem blind_before (base : List Tree) (us : List Token) : Blind (Before base us) (Behind base us) where
  current h := h.current
  currentText h := h.currentText
  atEnd h := h.atEnd
  isFollowedBy h hid k := h.isFollowedBy hid k
  delimiters h := h.delimiters_eq
  flush h := h.flush
  openTight h kind := ⟨h.openTight kind, h.covered⟩
  wrap h kind := ⟨h.toAlongside.wrap kind, h.covered⟩
  withDelimiters h _ _ hkinds := ⟨⟨h.rest_eq, h.frames_eq, hkinds, h.left, h.right⟩, h.covered⟩
  closeNode {s t} h := by
    refine (h.toAlongside.closeNode.and_ensures (ensures_rest_closeNode s)).mono fun s' t' hst => ⟨hst.1, ?_⟩
    rw [hst.2]
    exact h.covered
  bump h hnot := by
    refine h.bump_cases.mono fun s' t' hst => ⟨hst.1, ?_⟩
    exact hst.2.imp_right fun hrest => hrest.resolve_right fun hlast => hnot hlast.2
  claim {s t} h _ _ _ _ _ _ := by
    refine (h.toAlongside.claim.and_ensures (ensures_same_claim s _ _)).mono fun s' t' hst => ⟨hst.1, ?_⟩
    rw [hst.2.1]
    exact h.covered
  ended h := ⟨h.toAlongside, h.covered.imp_right .inr⟩
  bumpEnded h _ := h.bump_cases.mono fun s' t' hst => ⟨hst.1, hst.2.imp_right fun hrest => hrest.symm.imp_left And.left⟩
  closeEnded {s t} h := by
    refine (h.toAlongside.closeNode.and_ensures (ensures_rest_closeNode s)).mono fun s' t' hst => ⟨hst.1, ?_⟩
    rw [hst.2]
    exact h.covered

theorem bisimulation_before (base : List Tree) (us : List Token) :
    Bisimulation (Before base us) (Behind base us) where
  toSimulation := (blind_before base us).simulation
  isStopped h := by rw [isStopped, isStopped, h.left.2, h.right.2]
  allowsDepth h := by rw [h.left.1, h.right.1]; rfl
  descend h := by
    rw [Unlimited.descend_eq h.left, Unlimited.descend_eq h.right]
    exact ⟨⟨h.rest_eq, h.frames_eq, h.delimiters_eq, h.left, h.right⟩, h.covered⟩
  ascend h := ⟨⟨h.rest_eq, h.frames_eq, h.delimiters_eq, h.left, h.right⟩, h.covered⟩

theorem Alongside.run {base : List Tree} {s t : State} (h : Alongside base [] s t) {goals : List Goal}
    (hentering : Entering goals s) : Agree (Alongside base []) (run goals s) (run goals t) := by
  have hsame : Behind base [] = Before base [] := by
    funext s t
    exact propext ⟨fun h => ⟨h.toAlongside, .inl rfl⟩, fun h => ⟨h.toAlongside, .inl rfl⟩⟩
  have hwhole := bisimulation_before base []
  rw [hsame] at hwhole
  exact (hwhole.run ⟨h, .inl rfl⟩ hentering).mono fun _ _ h => h.toAlongside

/-! ### Agendas outside of function bodies -/

/-- The goals that end a statement or the tokens skipped in its place. -/
def Goal.endsStatement : Goal → Bool
  | .endStatement _ | .endRecovery | .endSkipped => true
  | _ => false

/-- Goals left over of one statement: what is being read or skipped, and the end of the statement. -/
def OfStatement (goals : List Goal) : Prop :=
  goals = [] ∨ ∃ ongoing last, goals = ongoing ++ [last] ∧ (∀ g ∈ ongoing, g.isInner = true ∨ g = .skip) ∧
    last.endsStatement = true

theorem ofStatement_nil : OfStatement [] := .inl rfl

theorem ofStatement_singleton {last : Goal} (hlast : last.endsStatement = true) : OfStatement [last] :=
  .inr ⟨[], last, rfl, fun _ hg => (nomatch hg), hlast⟩

theorem ofStatement_pair {g last : Goal} (hg : g.isInner = true ∨ g = .skip) (hlast : last.endsStatement = true) :
    OfStatement [g, last] :=
  .inr ⟨[g], last, rfl, List.forall_mem_singleton.mpr hg, hlast⟩

theorem ensures_leaving {P : List Goal → Prop} {goals : List Goal} (h : P goals) (r : Except Fault State) :
    Ensures (leaving goals r) fun p => P p.1 :=
  Ensures.map (p := fun _ => True) (fun _ _ => trivial) fun _ _ => h

theorem ofStatement_statementBody (form : Form) (s : State) :
    Ensures (statementBody form s) fun p => OfStatement p.1 := by
  unfold statementBody
  split
  · exact .ok (ofStatement_pair (.inl rfl) rfl)
  · split
    · exact ensures_leaving (ofStatement_singleton rfl) _
    · exact ensures_leaving (ofStatement_pair (.inr rfl) rfl) _

theorem ofStatement_endStatement (form : Form) (s : State) :
    Ensures (endStatement form s) fun p => OfStatement p.1 := by
  unfold endStatement
  split
  · exact ensures_leaving ofStatement_nil _
  · exact ensures_leaving (ofStatement_pair (.inr rfl) rfl) _

theorem ofStatement_recovery (message : String) (s : State) :
    Ensures (recovery message s) fun p => OfStatement p.1 :=
  Ensures.after fun _ => ensures_leaving (ofStatement_pair (.inr rfl) rfl) _

theorem ofStatement_statement {s : State} (hfunc : s.current ≠ .kwFunc) :
    Ensures (statement s) fun p => OfStatement p.1 := by
  have hdefinition : Ensures (definition s) fun p => OfStatement p.1 :=
    Ensures.after fun _ => Ensures.after fun _ => Ensures.after fun t => ofStatement_statementBody .definition t
  unfold statement
  split
  · exact hdefinition
  · exact hdefinition
  · exact ensures_leaving ofStatement_nil _
  · rename_i hcurrent
    exact absurd hcurrent hfunc
  · exact Ensures.after fun _ => Ensures.after fun t => ofStatement_statementBody .returned t
  · exact ofStatement_recovery _ s

theorem ofStatement_statements {s : State} (hgo : s.isStopped = false) (hend : s.atEnd = false)
    (hfunc : s.current ≠ .kwFunc) :
    Ensures (statements false s) fun p => ∃ part, p.1 = part ++ [.statements false] ∧ OfStatement part := by
  unfold statements
  rw [hgo, hend]
  refine Ensures.map (p := fun p => OfStatement p.1) ?_ fun p hp => ⟨p.1, rfl, hp⟩
  split
  · exact ofStatement_recovery _ s
  · exact ofStatement_statement hfunc

theorem ofStatement_of_endsStatement {g : Goal} (hg : g.endsStatement = true) (s : State) :
    Ensures (act g s) fun p => OfStatement p.1 := by
  cases g with
  | endStatement form => exact ofStatement_endStatement form s
  | endRecovery => exact ensures_leaving ofStatement_nil _
  | endSkipped => exact ensures_leaving ofStatement_nil _
  | _ => cases hg

/-- A goal inside a statement leaves over such goals only. -/
theorem Settled.inner_of_act {origin s t : State} {g : Goal} {goals new : List Goal}
    (h : Settled origin (g :: goals) s) (hinner : g.isInner = true) (hgo : s.isStopped = false)
    (hact : Parse.act g s = .ok (new, t)) : Inner new := by
  have hfits : Fits origin False (closesOf goals + g.closes) (g.pending ++ pendingOf goals) s :=
    h.fits.cast (by rw [closesOf_cons, Nat.add_comm]) rfl
  cases h.steady with
  | inOrder hpaired => exact ((Parse.act_inner hinner (hfits.pair hpaired)).of_eq_ok hact).2
  | stopped hstopped _ =>
      rw [hgo] at hstopped
      cases hstopped
  | skipping _ _ => cases hinner

/-- Outside of function bodies at most one statement is open. -/
def Flat (goals : List Goal) : Prop := ∃ part, goals = part ++ [.statements false] ∧ OfStatement part

theorem Flat.cons_cases {g : Goal} {goals : List Goal} (h : Flat (g :: goals)) :
    g = .statements false ∧ goals = [] ∨ g.endsStatement = true ∧ goals = [.statements false] ∨
      (g.isInner = true ∨ g = .skip) ∧ ∃ ongoing last, goals = ongoing ++ [last] ++ [.statements false] ∧
        (∀ g ∈ ongoing, g.isInner = true ∨ g = .skip) ∧ last.endsStatement = true := by
  obtain ⟨part, hgoals, rfl | ⟨ongoing, last, rfl, hongoing, hlast⟩⟩ := h
  · obtain ⟨rfl, rfl⟩ := List.cons.inj hgoals
    exact .inl ⟨rfl, rfl⟩
  · cases ongoing with
    | nil =>
        obtain ⟨rfl, rfl⟩ := List.cons.inj hgoals
        exact .inr (.inl ⟨hlast, rfl⟩)
    | cons g' ongoing =>
        obtain ⟨rfl, rfl⟩ := List.cons.inj hgoals
        obtain ⟨hg, hrest⟩ := List.forall_mem_cons.mp hongoing
        exact .inr (.inr ⟨hg, ongoing, last, rfl, hrest, hlast⟩)

theorem Flat.act {origin s t : State} {g : Goal} {goals new : List Goal} (h : Flat (g :: goals))
    (hsettled : Settled origin (g :: goals) s) (hgo : s.isStopped = false) (hend : s.atEnd = false)
    (hfunc : s.current ≠ .kwFunc) (hact : Parse.act g s = .ok (new, t)) : Flat (new ++ goals) := by
  obtain ⟨rfl, rfl⟩ | ⟨hg, rfl⟩ | ⟨hg, ongoing, last, rfl, hongoing, hlast⟩ := h.cons_cases
  · obtain ⟨part, hnew, hpart⟩ := ofStatement_statements hgo hend hfunc _ hact
    exact ⟨part, (List.append_nil new).trans hnew, hpart⟩
  · exact ⟨new, rfl, ofStatement_of_endsStatement hg s _ hact⟩
  · have hnew : ∀ g ∈ new, g.isInner = true ∨ g = .skip := by
      obtain hinner | rfl := hg
      · exact fun g hmem => .inl (hsettled.inner_of_act hinner hgo hact g hmem)
      · have hskip : Ensures (skip s) fun p => ∀ g ∈ p.1, g = .skip := by
          unfold skip
          split
          · exact .ok fun _ hmem => nomatch hmem
          · exact ensures_leaving (P := fun new => ∀ g ∈ new, g = .skip) (by simp) _
        exact fun g hmem => .inr (hskip _ hact g hmem)
    refine ⟨new ++ ongoing ++ [last], by simp, .inr ⟨new ++ ongoing, last, rfl, ?_, hlast⟩⟩
    exact List.forall_mem_append.mpr ⟨hnew, hongoing⟩

/-- Behind the `;` of a statement no other goal of it is left over. -/
theorem Flat.append_ended {g : Goal} {goals new : List Goal} (h : Flat (g :: goals)) (hnew : new ∈ g.ended) :
    new ++ goals ∈ (Goal.statements false).ended := by
  obtain ⟨rfl, rfl⟩ | ⟨hg, rfl⟩ | ⟨hg, -⟩ := h.cons_cases
  · rw [List.append_nil]
    exact hnew
  · have hnil : new = [] := by
      cases g with
      | endStatement form => exact List.mem_singleton.mp hnew
      | endRecovery => exact List.mem_singleton.mp hnew
      | endSkipped => exact List.mem_singleton.mp hnew
      | _ => cases hg
    rw [hnil]
    exact List.mem_cons_self
  · have hnone : g.ended = [] := by
      obtain hinner | rfl := hg
      · cases g with
        | statements inBody => cases hinner
        | endStatement form => cases hinner
        | endRecovery => cases hinner
        | endSkipped => cases hinner
        | _ => rfl
      · rfl
    rw [hnone] at hnew
    cases hnew

theorem Settled.mem_of_ahead {ts rest : List Token} {token : Token} {goals : List Goal} {s : State}
    (h : Settled (.start .none ts) goals s) (hahead : s.ahead = token :: rest) : token ∈ ts := by
  have htokens : s.built ++ s.rest = ts := h.fits.reached.built_append_rest
  have hmem : token ∈ s.rest := by
    rw [← s.trivia_append_ahead, hahead]
    exact List.mem_append_right _ List.mem_cons_self
  rw [← htokens]
  exact List.mem_append_right _ hmem

/-! ### The last `;` -/

theorem stops_of_startsStatement {s : State} (h : Token.startsStatement s.rest = true) :
    (s.atEnd || s.isStopped || s.atBoundary) = true ∧ s.looksAt .semicolon = false := by
  rw [Token.startsStatement, ← significant] at h
  obtain ⟨-, hcurrent, hend⟩ | ⟨next, rest, -, hcons, hcurrent, -⟩ := s.significant_cases
  · rw [hend, looksAt, hcurrent]
    exact ⟨rfl, rfl⟩
  · rw [hcons] at h
    obtain hkind | hname := Bool.or_eq_true_iff.mp h
    · rw [← hcurrent, List.contains_iff_mem] at hkind
      simp only [List.mem_cons, List.not_mem_nil, or_false] at hkind
      obtain hkind | hkind | hkind | hkind := hkind
      all_goals
        rw [atBoundary, looksAt, hkind]
        exact ⟨Bool.or_true _, rfl⟩
    · obtain ⟨hid, hequals⟩ := Bool.and_eq_true_iff.mp hname
      have hfollowed : s.isFollowedBy .equals = true := by
        rw [isFollowedBy_eq, hcons, List.getElem?_cons_succ, ← List.head?_eq_getElem?]
        exact hequals
      rw [atBoundary, looksAt, hcurrent, beq_iff_eq.mp hid, if_pos rfl, hfollowed]
      exact ⟨Bool.or_true _, rfl⟩

/-- Skipping ends, and the `;` that comes next belongs to what was skipped. -/
theorem run_skip {goals : List Goal} {s t : State} (hstop : (s.atEnd || s.isStopped || s.atBoundary) = true)
    (hnot : s.looksAt .semicolon = false) (hrun : run (.skip :: .endRecovery :: goals) s = .ok t) :
    ∃ u, s.closeNode = .ok u ∧ run goals u = .ok t := by
  obtain ⟨new, u, hskip, hrest⟩ := run_cons_eq_ok hrun
  have hskipped : skip s = .ok ([], s) := if_pos hstop
  rw [act, hskipped] at hskip
  cases hskip
  obtain ⟨new, v, hend, hrest⟩ := run_cons_eq_ok hrest
  have hended : endRecovery s = s.closeNode := by
    rw [endRecovery, skipOne, hnot]
    rfl
  rw [act, hended, done] at hend
  cases hclose : s.closeNode with
  | error fault =>
      rw [hclose] at hend
      cases hend
  | ok w =>
      rw [hclose] at hend
      cases hend
      exact ⟨v, rfl, hrest⟩

theorem run_statements_of_atEnd {s t : State} (hend : s.atEnd = true) (hrun : run [.statements false] s = .ok t) :
    t = s := by
  obtain ⟨new, u, hact, hrest⟩ := run_cons_eq_ok hrun
  have hnone : statements false s = .ok ([], s) := by
    rw [statements, hend, Bool.or_true]
    rfl
  rw [act, hnone] at hact
  cases hact
  rw [List.append_nil, run] at hrest
  cases hrest
  rfl

theorem atEnd_of_rest {s : State} (h : s.rest = []) : s.atEnd = true := by
  rw [atEnd, ahead, h]
  rfl

/-- Nothing is left to do for the first parse once its last `;` is consumed. What is left of it in the second parse ends
where the next statement starts. -/
theorem Alongside.ended {us : List Token} (hstart : Token.startsStatement us = true) {goals : List Goal}
    {s t s' t' : State} (h : Alongside [] us s t) (hrest : s.rest = []) (hgoals : goals ∈ (Goal.statements false).ended)
    (hrun : Parse.run goals s = .ok s') (hrun' : Parse.run goals t = .ok t') :
    ∃ u, Alongside [] us s' u ∧ s'.rest = [] ∧ Parse.run [.statements false] u = .ok t' := by
  have hus : t.rest = us := by rw [h.rest_eq, hrest, List.nil_append]
  simp only [Goal.ended, List.mem_cons, List.not_mem_nil, or_false] at hgoals
  obtain rfl | rfl := hgoals
  · rw [run_statements_of_atEnd (atEnd_of_rest hrest) hrun]
    exact ⟨t, h, hrest, hrun'⟩
  · obtain ⟨hstop, hnot⟩ := stops_of_startsStatement (by rw [hrest]; rfl : Token.startsStatement s.rest = true)
    obtain ⟨hstop', hnot'⟩ := stops_of_startsStatement (hus ▸ hstart)
    obtain ⟨u, hu, hrun⟩ := run_skip hstop hnot hrun
    obtain ⟨v, hv, hrun'⟩ := run_skip hstop' hnot' hrun'
    have hrest' : u.rest = [] := (ensures_rest_closeNode s u hu).trans hrest
    rw [run_statements_of_atEnd (atEnd_of_rest hrest') hrun]
    exact ⟨v, h.closeNode u v hu hv, hrest', hrun'⟩

/-- The second parse goes along until the first one ends, and has the statements of the rest before it then. -/
theorem Before.run {ts us : List Token} (hus : us ≠ []) (hstart : Token.startsStatement us = true)
    (hfunc : ∀ token ∈ ts, token.kind ≠ .kwFunc) {goals : List Goal} {s t s' t' : State} (h : Before [] us s t)
    (hentering : Entering goals s) (hflat : Flat goals) (hsettled : Settled (.start .none ts) goals s)
    (hrun : Parse.run goals s = .ok s') (hrun' : Parse.run goals t = .ok t') :
    ∃ u, Alongside [] us s' u ∧ s'.rest = [] ∧ Parse.run [.statements false] u = .ok t' := by
  fun_induction Parse.run goals s generalizing t with
  | case1 s =>
      obtain ⟨part, hgoals, -⟩ := hflat
      exact absurd hgoals.symm (List.append_ne_nil_of_right_ne_nil _ (List.cons_ne_nil _ _))
  | case2 g goals s fault hact => cases hrun
  | case3 g goals s new u hact ih =>
      obtain ⟨new', v, hact', hrest'⟩ := run_cons_eq_ok hrun'
      obtain ⟨hnew, hentering', hstates⟩ := (bisimulation_before [] us).act h hentering (new, u) (new', v) hact hact'
      dsimp only at hnew hentering' hstates
      rw [← hnew] at hrest'
      have hsettled' := hsettled.act.of_eq_ok hact
      have hflat' : Flat (new ++ goals) := by
        obtain ⟨token, rest, hahead, -, -⟩ := h.ahead_cases.resolve_left hus
        have hend : s.atEnd = false := by
          rw [State.atEnd, hahead]
          rfl
        refine hflat.act hsettled ?_ hend ?_ hact
        · rw [isStopped, h.left.2]
          rfl
        · rw [current_of_ahead hahead]
          exact hfunc token (hsettled.mem_of_ahead hahead)
      have hgo (hbefore : Before [] us u v) := ih hbefore hentering' hflat' hsettled' hrun hrest'
      obtain hbefore | ⟨hended, hbehind⟩ := hstates
      · exact hgo hbefore
      · obtain hnil | hends := hbehind.covered.resolve_left hus
        · exact hbehind.toAlongside.ended hstart hnil (hflat.append_ended hended) hrun hrest'
        · exact hgo ⟨hbehind.toAlongside, .inr hends⟩

/-! ### Whole parses -/

/-- What is parsed behind the last `;` goes on top of the trees in front of it. -/
theorem Alongside.start {us : List Token} {s w : State} (h : Alongside [] us s w) (hrest : s.rest = [])
    (hbelow : s.below = []) (hkind : s.top.kind = some .root) (hdelimiters : s.delimiters.map Delimiter.kind = []) :
    Alongside s.top.children [] (.start .none us) w := by
  refine ⟨?_, ?_, ?_, ⟨rfl, rfl⟩, h.right⟩
  · rw [h.rest_eq, hrest, List.nil_append]
    exact (List.append_nil us).symm
  · rw [h.frames_eq, hbelow, onTop, hkind, List.isEmpty_nil, if_pos rfl, List.append_nil]
    rfl
  · rw [← h.delimiters_eq, hdelimiters]
    rfl

theorem ofTokens_append {ts us : List Token} (hts : Paired ts) (hus : Paired us) (hends : Token.EndsStatement ts)
    (hfunc : ∀ token ∈ ts, token.kind ≠ .kwFunc) (hstart : Token.startsStatement us = true) :
    ∃ p q r, ofTokens .none ts = .ok p ∧ ofTokens .none us = .ok q ∧ ofTokens .none (ts ++ us) = .ok r ∧
      r.root.children = p.root.children ++ q.root.children := by
  obtain ⟨s, hs, hreached, hbelow, ⟨e, hnone, -⟩ | ⟨-, -, hp⟩⟩ := ofTokens_eq .none hts
  · exact absurd rfl hnone
  obtain ⟨u, hu, -, hbelow', ⟨e, hnone, -⟩ | ⟨-, -, hq⟩⟩ := ofTokens_eq .none hus
  · exact absurd rfl hnone
  obtain ⟨t, ht, -, -, ⟨e, hnone, -⟩ | ⟨-, -, hr⟩⟩ := ofTokens_eq .none (hts.append hus)
  · exact absurd rfl hnone
  refine ⟨_, _, _, hp, hq, hr, ?_⟩
  simp only [Tree.children]
  by_cases hne : us = []
  · subst hne
    rw [List.append_nil, hs] at ht
    cases ht
    have hempty := run_statements_of_atEnd (atEnd_of_rest rfl) hu
    rw [hempty]
    exact (List.append_nil _).symm
  · have hsettled := Settled.start .none hts
    have hbefore : Before [] us (.start .none ts) (.start .none (ts ++ us)) :=
      ⟨⟨rfl, rfl, rfl, ⟨rfl, rfl⟩, ⟨rfl, rfl⟩⟩, .inr hends⟩
    obtain ⟨w, hw, hrest, hrun⟩ := hbefore.run hne hstart hfunc (entering_start _)
      ⟨[], rfl, ofStatement_nil⟩ hsettled hs ht
    have hkind : s.top.kind = some .root := by
      have hbottom := hreached.kind_bottom
      rw [bottom, hbelow] at hbottom
      exact hbottom
    have hopened := (hsettled.run.of_eq_ok hs).fits.opened_eq
    have hfinal := (hw.start hrest hbelow hkind hopened).run (entering_start _) u t hu hrun
    have hflush : Before s.top.children [] u.flush t.flush := Before.flush ⟨hfinal, .inl rfl⟩
    have htop := hflush.top_eq
    rw [show u.flush.below = [] from hbelow', List.isEmpty_nil, if_pos rfl] at htop
    have hnone : s.flush.top.children = s.top.children := by
      rw [flush, trivia, hrest]
      rfl
    rw [htop, hnone, List.reverse_append]

end Transducer.Parse

namespace Transducer

/-- The statements of a whole source among the nodes of its root. -/
def Tree.statements (root : Tree) : List Tree :=
  root.children.filter fun
    | .leaf _ => false
    | .node kind _ => [.varDef, .importStmt, .funcDef, .returnStmt].contains kind

/-- Recovery is confined to the broken statement. The first text may be broken in any way: if it ends in a `;` and
defines no function, then a second text that starts with a statement is parsed behind it as it is on its own. -/
theorem parse_confines_recovery {source rest : String} (hlast : Token.EndsStatement (lex source))
    (hfunc : ∀ token ∈ lex source, token.kind ≠ .kwFunc) (hstart : Token.startsStatement (lex rest) = true) :
    ∃ p q r, parse .none source = .ok p ∧ parse .none rest = .ok q ∧ parse .none (source ++ rest) = .ok r ∧
      r.root.statements = p.root.statements ++ q.root.statements := by
  obtain ⟨p, q, r, hp, hq, hr, hchildren⟩ :=
    Parse.ofTokens_append (paired_lex source) (paired_lex rest) hlast hfunc hstart
  refine ⟨p, q, r, hp, hq, ?_, ?_⟩
  · rw [parse, lex_append hlast]
    exact hr
  · rw [Tree.statements, hchildren, List.filter_append]
    rfl

/-- A group that is never closed does not reach the next definition. -/
theorem parse_confines_recovery_of_open_group :
    Token.EndsStatement (lex "a = (b | [;") ∧ (∀ token ∈ lex "a = (b | [;", token.kind ≠ .kwFunc) ∧
      Token.startsStatement (lex " export c = 'x';") = true ∧
      ∃ p q r, parse .none "a = (b | [;" = .ok p ∧ parse .none " export c = 'x';" = .ok q ∧
        parse .none ("a = (b | [;" ++ " export c = 'x';") = .ok r ∧
        r.root.statements = p.root.statements ++ q.root.statements := by
  have hlast : Token.EndsStatement (lex "a = (b | [;") := ⟨(lex "a = (b | [;").dropLast, by decide +kernel⟩
  have hfunc : ∀ token ∈ lex "a = (b | [;", token.kind ≠ .kwFunc := by decide +kernel
  have hstart : Token.startsStatement (lex " export c = 'x';") = true := by decide +kernel
  exact ⟨hlast, hfunc, hstart, parse_confines_recovery hlast hfunc hstart⟩

end Transducer
