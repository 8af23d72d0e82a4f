import Transducer.Proofs.Parse.Simulation
import Transducer.Proofs.Token.Insertion

/-!
# Parses that differ by a `;`

Two parses see the same tokens ahead, and what they have built is the same but for one `;`. They stay so to their end,
since no goal looks back at what has been built.
-/

namespace Transducer

/-- The same trees, with one `;` more among them or inside of one of them. -/
inductive Tree.Gains : List Tree → List Tree → Prop
  | leaf (ts us : List Tree) : Gains (ts ++ us) (ts ++ .leaf .semicolon :: us)
  | node (ts us : List Tree) (kind : Kind) {cs cs' : List Tree} (h : Gains cs cs') :
      Gains (ts ++ .node kind cs :: us) (ts ++ .node kind cs' :: us)

namespace Tree.Gains

variable {cs cs' : List Tree}

theorem append_left (h : Gains cs cs') (trees : List Tree) : Gains (trees ++ cs) (trees ++ cs') := by
  cases h with
  | leaf ts us =>
      rw [← List.append_assoc, ← List.append_assoc]
      exact .leaf (trees ++ ts) us
  | node ts us kind h =>
      rw [← List.append_assoc, ← List.append_assoc]
      exact .node (trees ++ ts) us kind h

theorem append_right (h : Gains cs cs') (trees : List Tree) : Gains (cs ++ trees) (cs' ++ trees) := by
  cases h with
  | leaf ts us =>
      rw [List.append_assoc, List.append_assoc]
      exact .leaf ts (us ++ trees)
  | node ts us kind h =>
      rw [List.append_assoc, List.append_assoc]
      exact .node ts (us ++ trees) kind h

end Tree.Gains

namespace Parse

open State

/-! ### Frames -/

/-- One of the open frames has gained a `;`, or something inside it has. -/
inductive Frame.Gain : List Frame → List Frame → Prop
  | top {kind : Option Kind} {cs cs' : List Tree} (h : Tree.Gains cs.reverse cs'.reverse) (fs : List Frame) :
      Gain (⟨kind, cs⟩ :: fs) (⟨kind, cs'⟩ :: fs)
  | deeper (f : Frame) {fs gs : List Frame} (h : Gain fs gs) : Gain (f :: fs) (f :: gs)

namespace Frame.Gain

variable {f g : Frame} {fs gs : List Frame}

theorem push (h : Gain (f :: fs) (g :: gs)) (trees : List Tree) :
    Gain (⟨f.kind, trees ++ f.children⟩ :: fs) (⟨g.kind, trees ++ g.children⟩ :: gs) := by
  cases h with
  | top h fs =>
      refine .top ?_ fs
      rw [List.reverse_append, List.reverse_append]
      exact h.append_right trees.reverse
  | deeper _ h => exact .deeper _ h

theorem rename (h : Gain (f :: fs) (g :: gs)) (kind : Option Kind) :
    Gain (⟨kind, f.children⟩ :: fs) (⟨kind, g.children⟩ :: gs) := by
  cases h with
  | top h fs => exact .top h fs
  | deeper _ h => exact .deeper _ h

/-- The highest frame is closed. -/
theorem close {frame frame' : Frame} (h : Gain (f :: frame :: fs) (g :: frame' :: gs)) :
    Gain
      ({ frame with
        children := match f.kind with
          | some kind => Tree.node kind f.children.reverse :: frame.children
          | none => f.children ++ frame.children } :: fs)
      ({ frame' with
        children := match g.kind with
          | some kind => Tree.node kind g.children.reverse :: frame'.children
          | none => g.children ++ frame'.children } :: gs) := by
  cases h with
  | @top kind cs cs' h _ =>
      refine .top ?_ fs
      cases kind with
      | none =>
          simp only [List.reverse_append]
          exact h.append_left frame.children.reverse
      | some kind =>
          simp only [List.reverse_cons]
          exact .node frame.children.reverse [] kind h
  | deeper _ h =>
      cases f.kind with
      | none => exact h.push f.children
      | some kind => exact h.push [.node kind f.children.reverse]

/-- When a single frame is left, its trees have gained the `;`. -/
theorem last (h : Gain [f] [g]) : Tree.Gains f.children.reverse g.children.reverse := by
  cases h with
  | top h _ => exact h
  | deeper _ h => cases h

end Frame.Gain

/-! ### States -/

/-- The parses see the same tokens ahead, and the second one has built one `;` more. Neither has a limit. -/
structure Gained (s t : State) : Prop where
  rest_eq : t.rest = s.rest
  frames : Frame.Gain (s.top :: s.below) (t.top :: t.below)
  delimiters_eq : s.delimiters.map Delimiter.kind = t.delimiters.map Delimiter.kind
  left : s.Unlimited
  right : t.Unlimited

namespace Gained

variable {s t : State}

theorem ahead_eq (h : Gained s t) : t.ahead = s.ahead := congrArg (List.dropWhile Token.isTrivia) h.rest_eq

theorem trivia_eq (h : Gained s t) : t.trivia = s.trivia := congrArg (List.takeWhile Token.isTrivia) h.rest_eq

theorem flush (h : Gained s t) : Gained s.flush t.flush := by
  refine ⟨h.ahead_eq, ?_, h.delimiters_eq, h.left, h.right⟩
  have hright : t.flush.top = ⟨t.top.kind, (s.trivia.map Tree.leaf).reverse ++ t.top.children⟩ := by
    rw [← h.trivia_eq]
    rfl
  rw [hright]
  exact h.frames.push (s.trivia.map Tree.leaf).reverse

theorem closeNode (h : Gained s t) : Agree Gained s.closeNode t.closeNode := by
  intro s' t' hs ht
  obtain ⟨frame, below, hbelow, rfl⟩ := closeNode_eq_ok hs
  obtain ⟨frame', below', hbelow', rfl⟩ := closeNode_eq_ok ht
  have hframes := h.frames
  rw [hbelow, hbelow'] at hframes
  exact ⟨h.rest_eq, hframes.close, h.delimiters_eq, h.left, h.right⟩

theorem bump (h : Gained s t) : Agree Gained s.bump t.bump := by
  intro s' t' hs ht
  have hleft := (Move.bumped hs).unlimited h.left
  have hright := (Move.bumped ht).unlimited h.right
  obtain ⟨token, ts, hahead, rfl⟩ := bump_eq_ok hs
  obtain ⟨token', ts', hahead', rfl⟩ := bump_eq_ok ht
  obtain ⟨rfl, rfl⟩ := List.cons.inj (hahead'.symm.trans (h.ahead_eq.trans hahead))
  refine ⟨rfl, ?_, h.delimiters_eq, hleft, hright⟩
  rw [h.trivia_eq]
  exact h.frames.push (.leaf token' :: (s.trivia.map Tree.leaf).reverse)

theorem claim (h : Gained s t) (position position' : Nat) (report report' : Except Fault Diagnostic) :
    Agree Gained (s.claim position report) (t.claim position' report') := by
  intro s' t' hs ht
  obtain ⟨rfl, -⟩ | ⟨d, -, -, rfl⟩ := claim_eq_ok hs
  all_goals
    obtain ⟨rfl, -⟩ | ⟨d', -, -, rfl⟩ := claim_eq_ok ht
    all_goals exact ⟨h.rest_eq, h.frames, h.delimiters_eq, h.left, h.right⟩

end Gained

theorem blind_gained : Blind Gained Gained where
  current h := (current_of_rest h.rest_eq).symm
  currentText h := by rw [currentText, currentText, h.ahead_eq]
  atEnd h := by rw [atEnd, atEnd, h.ahead_eq]
  isFollowedBy h _ k := by rw [isFollowedBy, isFollowedBy, h.ahead_eq]
  delimiters h := h.delimiters_eq
  flush h := h.flush
  openTight h _ := ⟨h.rest_eq, .deeper _ h.frames, h.delimiters_eq, h.left, h.right⟩
  wrap h kind := ⟨h.rest_eq, h.frames.rename (some kind), h.delimiters_eq, h.left, h.right⟩
  withDelimiters h _ _ hkinds := ⟨h.rest_eq, h.frames, hkinds, h.left, h.right⟩
  closeNode h := h.closeNode
  bump h _ := h.bump
  claim h _ _ _ _ _ _ := h.claim _ _ _ _
  ended h := h
  bumpEnded h _ := h.bump
  closeEnded h := h.closeNode

theorem bisimulation_gained : Bisimulation Gained Gained where
  toSimulation := blind_gained.simulation
  isStopped h := by rw [isStopped, isStopped, h.left.2, h.right.2]
  allowsDepth h := by rw [h.left.1, h.right.1]; rfl
  descend h := by
    rw [Unlimited.descend_eq h.left, Unlimited.descend_eq h.right]
    exact ⟨h.rest_eq, h.frames, h.delimiters_eq, h.left, h.right⟩
  ascend h := ⟨h.rest_eq, h.frames, h.delimiters_eq, h.left, h.right⟩

end Parse

end Transducer
