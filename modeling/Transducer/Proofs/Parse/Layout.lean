import Transducer.Proofs.Parse.Shape
import Transducer.Proofs.Parse.Simulation
import Transducer.Proofs.Parse.Totality
import Transducer.Proofs.Tree.Bare

/-!
# Parsing is blind to layout

The view of a state leaves out trivia, positions and the wording of diagnostics. Everything that a goal decides on is
part of the view, and every operation changes the view in a way that the view determines. Two parses whose significant
tokens are the same therefore go through the same views. Only the place of the last report is not part of the view,
although a report is dropped where another one was made: a report that is dropped comes after one that was not, so
that the verdict is the same in both cases.
-/

namespace Transducer

theorem Diagnostic.hasErrors_reverse (ds : List Diagnostic) : hasErrors ds.reverse = hasErrors ds := List.any_reverse

namespace Parse

open Transducer.Tree State

/-- A frame without trivia. -/
def Frame.bare (f : Frame) : Frame := ⟨f.kind, bareAll f.children⟩

/-- What a state looks like when layout is left out. -/
structure View where
  ahead : List Token
  top : Frame
  below : List Frame
  delimiters : List Kind
  depth : Nat
  consumed : Nat
  limits : Limits
  stopped : Option LimitError
  hasErrors : Bool

namespace View

def opened (v : View) (kind : Option Kind) : View := { v with top := ⟨kind, []⟩, below := v.top :: v.below }

def wrapped (v : View) (kind : Kind) : View := { v with top.kind := some kind }

/-- The top frame with all that its parent keeps of it. -/
def closed (v : View) : View :=
  match v.below with
  | [] => v
  | frame :: below =>
      { v with
        top.kind := frame.kind
        top.children := match v.top.kind with
          | some kind => Tree.node kind v.top.children.reverse :: frame.children
          | none => v.top.children ++ frame.children
        below }

def stoppedUnless (v : View) (allowed : Bool) (e : LimitError) : Option LimitError :=
  if allowed then v.stopped else v.stopped <|> some e

def bumped (v : View) : View :=
  match v.ahead with
  | [] => v
  | t :: ts =>
      { v with
        ahead := ts
        top.children := .leaf t :: v.top.children
        consumed := v.consumed + 1
        stopped := v.stoppedUnless (v.limits.allowsToken v.consumed) .tokens }

def descended (v : View) : View :=
  { v with
    depth := if v.limits.allowsDepth v.depth then v.depth + 1 else v.depth
    stopped := v.stoppedUnless (v.limits.allowsDepth v.depth) .depth }

def failed (v : View) : View := { v with hasErrors := true }

end View

namespace State

def view (s : State) : View where
  ahead := s.significant
  top := s.top.bare
  below := s.below.map Frame.bare
  delimiters := s.delimiters.map Delimiter.kind
  depth := s.depth
  consumed := s.consumed
  limits := s.limits
  stopped := s.stopped
  hasErrors := Diagnostic.hasErrors s.diagnostics

/-! ### How operations change the view -/

theorem view_flush (s : State) : s.flush.view = s.view := by
  have hchildren : bareAll ((s.trivia.map Tree.leaf).reverse ++ s.top.children) = bareAll s.top.children := by
    rw [bareAll_append, bareAll_reverse, bareAll_of_trivia s.isTrivia_of_mem_trivia]
    rfl
  simp only [view, flush, significant, State.ahead, filter_significant_dropTrivia, Frame.bare, hchildren]

theorem view_closeNode {s t : State} (h : s.closeNode = .ok t) : t.view = s.view.closed := by
  obtain ⟨frame, below, hbelow, rfl⟩ := closeNode_eq_ok h
  have hview : s.view.below = frame.bare :: below.map Frame.bare := congrArg (List.map Frame.bare) hbelow
  rw [View.closed, hview]
  simp only [view, Frame.bare]
  cases s.top.kind with
  | none =>
      rw [bareAll_append]
      rfl
  | some kind =>
      rw [bareAll, bare, bareAll_reverse]
      rfl

theorem view_bump {s t : State} (h : s.bump = .ok t) : t.view = s.view.bumped := by
  obtain ⟨token, ts, hahead, rfl⟩ := bump_eq_ok h
  have hsignificant := significant_of_ahead hahead
  have htoken : token.isTrivia = false := by
    have hmem : token ∈ s.significant := by
      rw [hsignificant]
      exact List.mem_cons_self
    simpa using (List.mem_filter.mp hmem).2
  have hchildren : bareAll (.leaf token :: ((s.trivia.map Tree.leaf).reverse ++ s.top.children)) =
      .leaf token :: bareAll s.top.children := by
    rw [bareAll, isTrivia, htoken, bareAll_append, bareAll_reverse,
      bareAll_of_trivia s.isTrivia_of_mem_trivia]
    rfl
  have hview : s.view.ahead = token :: ts.filter fun t => !t.isTrivia := hsignificant
  rw [View.bumped, hview]
  simp only [view, Frame.bare, hchildren]
  rfl

theorem view_descend (s : State) : s.descend.view = s.view.descended := by
  simp only [descend, View.descended, View.stoppedUnless]
  by_cases hallowed : s.limits.allowsDepth s.depth = true
  · have hview : s.view.limits.allowsDepth s.view.depth = true := hallowed
    rw [if_pos hallowed, if_pos hview, if_pos hview]
    rfl
  · have hview : ¬ s.view.limits.allowsDepth s.view.depth = true := hallowed
    rw [if_neg hallowed, if_neg hview, if_neg hview]
    rfl

/-! ### What is decided on -/

theorem current_eq (s : State) : s.current = (s.significant.head?.map Token.kind).getD .error := by
  obtain ⟨hnil, hcurrent, -⟩ | ⟨next, rest, -, hcons, hcurrent, -⟩ := s.significant_cases
  · rw [hnil, hcurrent]
    rfl
  · rw [hcons, hcurrent]
    rfl

theorem currentText_eq (s : State) : s.currentText = (s.significant.head?.map Token.text).getD "" := by
  obtain ⟨hnil, -, hend⟩ | ⟨next, rest, -, hcons, -, htext⟩ := s.significant_cases
  · rw [hnil, currentText, List.isEmpty_iff.mp hend]
    rfl
  · rw [hcons, htext]
    rfl

theorem atEnd_eq (s : State) : s.atEnd = s.significant.isEmpty := by
  obtain ⟨hnil, -, hend⟩ | ⟨next, rest, hahead, hcons, -, -⟩ := s.significant_cases
  · rw [hnil, hend]
    rfl
  · rw [hcons, atEnd, hahead]
    rfl

/-- The last report, if there was one, was that of an error. -/
def Blamed (s : State) : Prop := s.claimed.isSome = true → Diagnostic.hasErrors s.diagnostics = true

/-- Both states look the same. -/
structure Alike (s t : State) : Prop where
  view_eq : s.view = t.view
  left : s.Blamed
  right : t.Blamed

namespace Alike

variable {s t : State}

theorem significant (h : Alike s t) : s.significant = t.significant := congrArg View.ahead h.view_eq

theorem current (h : Alike s t) : s.current = t.current := by
  rw [current_eq, current_eq, h.significant]

theorem currentText (h : Alike s t) : s.currentText = t.currentText := by
  rw [currentText_eq, currentText_eq, h.significant]

theorem atEnd (h : Alike s t) : s.atEnd = t.atEnd := by
  rw [atEnd_eq, atEnd_eq, h.significant]

theorem isFollowedBy (h : Alike s t) (k : Kind) : s.isFollowedBy k = t.isFollowedBy k := by
  rw [isFollowedBy_eq, isFollowedBy_eq, h.significant]

theorem isStopped (h : Alike s t) : s.isStopped = t.isStopped := congrArg (fun v => v.stopped.isSome) h.view_eq

theorem allowsDepth (h : Alike s t) : s.limits.allowsDepth s.depth = t.limits.allowsDepth t.depth :=
  congrArg (fun v => v.limits.allowsDepth v.depth) h.view_eq

/-! ### Operations without a fault -/

theorem openTight (h : Alike s t) (kind : Option Kind) : Alike (s.openTight kind) (t.openTight kind) :=
  ⟨congrArg (·.opened kind) h.view_eq, h.left, h.right⟩

theorem flush (h : Alike s t) : Alike s.flush t.flush := by
  refine ⟨?_, h.left, h.right⟩
  rw [view_flush, view_flush, h.view_eq]

theorem wrap (h : Alike s t) (kind : Kind) : Alike (s.wrap kind) (t.wrap kind) :=
  ⟨congrArg (·.wrapped kind) h.view_eq, h.left, h.right⟩

theorem descend (h : Alike s t) : Alike s.descend t.descend := by
  have hblamed {s : State} (hs : s.Blamed) : s.descend.Blamed := by
    obtain ⟨depth, hdescend⟩ := s.descend_eq
    rw [hdescend]
    exact hs
  refine ⟨?_, hblamed h.left, hblamed h.right⟩
  rw [view_descend, view_descend, h.view_eq]

theorem ascend (h : Alike s t) : Alike s.ascend t.ascend :=
  ⟨congrArg (fun v : View => { v with depth := v.depth - 1 }) h.view_eq, h.left, h.right⟩

theorem withDelimiters (h : Alike s t) {ds ds' : List Delimiter}
    (hds : ds.map Delimiter.kind = ds'.map Delimiter.kind) :
    Alike { s with delimiters := ds } { t with delimiters := ds' } := by
  refine ⟨?_, h.left, h.right⟩
  change ({ s.view with delimiters := ds.map Delimiter.kind } : View) =
    { t.view with delimiters := ds'.map Delimiter.kind }
  rw [h.view_eq, hds]

/-! ### Tokens, nodes and reports -/

theorem bump (h : Alike s t) : Agree Alike s.bump t.bump := by
  intro s' t' hs ht
  refine ⟨?_, ?_, ?_⟩
  · rw [view_bump hs, view_bump ht, h.view_eq]
  · obtain ⟨token, ts, -, rfl⟩ := bump_eq_ok hs
    exact h.left
  · obtain ⟨token, ts, -, rfl⟩ := bump_eq_ok ht
    exact h.right

theorem closeNode (h : Alike s t) : Agree Alike s.closeNode t.closeNode := by
  intro s' t' hs ht
  refine ⟨?_, ?_, ?_⟩
  · rw [view_closeNode hs, view_closeNode ht, h.view_eq]
  · obtain ⟨frame, below, -, rfl⟩ := closeNode_eq_ok hs
    exact h.left
  · obtain ⟨frame, below, -, rfl⟩ := closeNode_eq_ok ht
    exact h.right

end Alike

/-- Whether a report is dropped or not, an error has been reported behind it. -/
theorem view_claim {s t : State} {position : Nat} {report : Except Fault Diagnostic} (hs : s.Blamed)
    (hreport : Ensures report fun d => d.isError = true) (h : s.claim position report = .ok t) :
    t.view = s.view.failed ∧ t.Blamed := by
  obtain ⟨rfl, hclaimed⟩ | ⟨d, hd, -, rfl⟩ := claim_eq_ok h
  · have herrors : Diagnostic.hasErrors t.diagnostics = true := hs (by rw [hclaimed]; rfl)
    refine ⟨?_, fun _ => herrors⟩
    simp only [view, View.failed, herrors]
  · have herrors : Diagnostic.hasErrors (d :: s.diagnostics) = true := by
      rw [Diagnostic.hasErrors, List.any_cons, hreport d hd]
      rfl
    refine ⟨?_, fun _ => herrors⟩
    simp only [view, View.failed, herrors]
    rfl

namespace Alike

variable {s t : State}

theorem claim (h : Alike s t) {position position' : Nat} {report report' : Except Fault Diagnostic}
    (hreport : Ensures report fun d => d.isError = true) (hreport' : Ensures report' fun d => d.isError = true) :
    Agree Alike (s.claim position report) (t.claim position' report') := by
  intro s' t' hs ht
  obtain ⟨hview, hblamed⟩ := view_claim h.left hreport hs
  obtain ⟨hview', hblamed'⟩ := view_claim h.right hreport' ht
  exact ⟨by rw [hview, hview', h.view_eq], hblamed, hblamed'⟩

end Alike

end State

/-! ### Whole parses -/

theorem blind_alike : Blind Alike Alike where
  current h := h.current
  currentText h := h.currentText
  atEnd h := h.atEnd
  isFollowedBy h _ k := h.isFollowedBy k
  delimiters h := congrArg View.delimiters h.view_eq
  flush h := h.flush
  openTight h kind := h.openTight kind
  wrap h kind := h.wrap kind
  withDelimiters h _ _ hkinds := h.withDelimiters hkinds
  closeNode h := h.closeNode
  bump h _ := h.bump
  claim h _ _ _ _ hreport hreport' := h.claim hreport hreport'
  ended h := h
  bumpEnded h _ := h.bump
  closeEnded h := h.closeNode

theorem bisimulation_alike : Bisimulation Alike Alike where
  toSimulation := blind_alike.simulation
  isStopped h := h.isStopped
  allowsDepth h := h.allowsDepth
  descend h := h.descend
  ascend h := h.ascend

/-- Two results that are the same up to layout. -/
structure ParsedAlike (p q : Parsed) : Prop where
  root : p.root.bare = q.root.bare
  consumed : p.consumed = q.consumed
  hasErrors : Diagnostic.hasErrors p.diagnostics = Diagnostic.hasErrors q.diagnostics

theorem result_eq {s : State} {kind : Kind} (hstopped : s.stopped = none) (hkind : s.top.kind = some kind)
    (hbelow : s.below = []) : s.result = .ok ⟨.node kind s.top.children.reverse, s.diagnostics.reverse,
      if s.limits.tokens.isSome then s.consumed else 0⟩ := by
  rw [State.result, hstopped, hkind, hbelow]

/-- What a finished state holds can be told from its view. -/
theorem result_alike {s t : State} {kind : Kind} (h : Alike s t) (hbelow : s.below = [])
    (hkind : s.top.kind = some kind) :
    (∃ e, s.result = .error (.limit e) ∧ t.result = .error (.limit e)) ∨
      ∃ p q, s.result = .ok p ∧ t.result = .ok q ∧ ParsedAlike p q := by
  have hstopped : s.stopped = t.stopped := congrArg View.stopped h.view_eq
  have hkind' : t.top.kind = some kind := by
    rw [← hkind]
    exact (congrArg (fun v => v.top.kind) h.view_eq).symm
  have hbelow' : t.below = [] := by
    have hmap : s.below.map Frame.bare = t.below.map Frame.bare := congrArg View.below h.view_eq
    rw [hbelow] at hmap
    exact List.map_eq_nil_iff.mp hmap.symm
  have hchildren : bareAll s.top.children = bareAll t.top.children :=
    congrArg (fun v => v.top.children) h.view_eq
  cases hlimit : s.stopped with
  | some e =>
      refine .inl ⟨e, ?_, ?_⟩
      · rw [State.result, hlimit]
      · rw [State.result, ← hstopped, hlimit]
  | none =>
      have hlimit' : t.stopped = none := hstopped ▸ hlimit
      refine .inr ⟨_, _, result_eq hlimit hkind hbelow, result_eq hlimit' hkind' hbelow', ?_, ?_, ?_⟩
      · dsimp only
        rw [bare, bare, bareAll_reverse, bareAll_reverse, hchildren]
      · exact congrArg (fun v => if v.limits.tokens.isSome then v.consumed else 0) h.view_eq
      · dsimp only
        rw [Diagnostic.hasErrors_reverse, Diagnostic.hasErrors_reverse]
        exact congrArg View.hasErrors h.view_eq

theorem alike_start (limits : Limits) {tokens tokens' : List Token}
    (h : tokens.filter (fun t => !t.isTrivia) = tokens'.filter fun t => !t.isTrivia) :
    Alike (.start limits tokens) (.start limits tokens') :=
  ⟨congrArg (fun ahead => { (State.start limits []).view with ahead }) h, fun hsome => (nomatch hsome),
    fun hsome => (nomatch hsome)⟩

end Parse

open Parse

/-- Parses of sources with the same significant tokens hit the same limit, or have the same result up to layout. -/
theorem parse_alike (limits : Limits) {source source' : String}
    (h : (lex source).filter (fun t => !t.isTrivia) = (lex source').filter fun t => !t.isTrivia) :
    (∃ e, parse limits source = .error (.limit e) ∧ parse limits source' = .error (.limit e)) ∨
      ∃ p q, parse limits source = .ok p ∧ parse limits source' = .ok q ∧ ParsedAlike p q := by
  obtain ⟨s, hs, hreached, hbelow, -⟩ := run_start limits (paired_lex source)
  obtain ⟨t, ht, -, -, -⟩ := run_start limits (paired_lex source')
  have hkind : s.top.kind = some .root := by
    have hbottom := hreached.kind_bottom
    rw [State.bottom, hbelow] at hbottom
    exact hbottom
  have halike : s.Alike t := bisimulation_alike.run (alike_start limits h) (entering_start _) s t hs ht
  have hresult := result_alike halike.flush hbelow hkind
  rw [parse, parse, ofTokens, ofTokens, hs, ht]
  exact hresult

end Transducer
