import Mathlib.Logic.Relation
import Transducer.Parse.Progress

/-!
# What a parse can do to its state

Whatever a goal does, it does by a few moves: trivia or a token goes into the tree, a frame is opened, named or
closed, a diagnostic is claimed, a delimiter is remembered or forgotten, an expression is entered or left. What
every move preserves holds in every state that a parse can reach, whatever the source and the limits are, and also
after a limit was hit. Three such facts are proved here: the leaves built so far and the tokens ahead are all tokens
of the source, positions are consistent, and the root stays at the bottom.
-/

namespace Transducer

namespace Token

theorem foldl_width (ts : List Token) (n : Nat) :
    ts.foldl (fun n t => n + t.width) n = n + totalWidth ts := by
  induction ts generalizing n with
  | nil => rfl
  | cons t ts ih =>
      rw [totalWidth, List.foldl_cons, List.foldl_cons, ih, ih]
      omega

@[simp]
theorem totalWidth_nil : totalWidth [] = 0 := rfl

@[simp]
theorem totalWidth_cons (t : Token) (ts : List Token) : totalWidth (t :: ts) = t.width + totalWidth ts := by
  rw [totalWidth, List.foldl_cons, foldl_width, Nat.zero_add]

@[simp]
theorem totalWidth_append (ts us : List Token) : totalWidth (ts ++ us) = totalWidth ts + totalWidth us := by
  rw [totalWidth, List.foldl_append, foldl_width]
  rfl

end Token

namespace Tree

@[simp]
theorem leavesOf_append (ts us : List Tree) : leavesOf (ts ++ us) = leavesOf ts ++ leavesOf us := by
  induction ts with
  | nil => rfl
  | cons t ts ih => rw [List.cons_append, leavesOf, leavesOf, ih, List.append_assoc]

@[simp]
theorem leavesOf_leaf (ts : List Token) : leavesOf (ts.map Tree.leaf) = ts := by
  induction ts with
  | nil => rfl
  | cons t ts ih => rw [List.map_cons, leavesOf, leaves, ih, List.singleton_append]

@[simp]
theorem leavesOf_singleton (t : Tree) : leavesOf [t] = t.leaves := by
  rw [leavesOf, leavesOf, List.append_nil]

end Tree

namespace Parse

namespace State

theorem trivia_append_ahead (s : State) : s.trivia ++ s.ahead = s.rest := List.takeWhile_append_dropWhile

/-! ### Moves -/

/-- One change of the state. -/
inductive Move : State → State → Prop where
  | flushed {s : State} : Move s s.flush
  | opened {s : State} (kind : Option Kind) : Move s (s.openTight kind)
  /-- The root is never renamed. -/
  | wrapped {s : State} (kind : Kind) (hbelow : s.below ≠ []) : Move s (s.wrap kind)
  | closed {s t : State} (h : s.closeNode = .ok t) : Move s t
  | bumped {s t : State} (h : s.bump = .ok t) : Move s t
  | claimed {s t : State} {position : Nat} {report : Except Fault Diagnostic}
      (h : s.claim position report = .ok t) : Move s t
  | remembered {s : State} (kind : Kind) : Move s { s with delimiters := ⟨kind, s.currentSpan⟩ :: s.delimiters }
  | forgotten {s : State} {d : Delimiter} {ds : List Delimiter} (h : s.delimiters = d :: ds) :
      Move s { s with delimiters := ds }
  | descended {s : State} : Move s s.descend
  | ascended {s : State} : Move s s.ascend

def Reaches : State → State → Prop := Relation.ReflTransGen Move

namespace Reaches

variable {s t u : State}

theorem refl (s : State) : Reaches s s := Relation.ReflTransGen.refl

theorem move (h : Reaches s t) (hmove : Move t u) : Reaches s u := Relation.ReflTransGen.tail h hmove

theorem trans (h : Reaches s t) (h' : Reaches t u) : Reaches s u := Relation.ReflTransGen.trans h h'

/-- What every move preserves holds in every state that is reached. -/
theorem preserves {p : State → Prop} (h : Reaches s t) (hs : p s) (hmove : ∀ s t, Move s t → p s → p t) : p t := by
  induction h with
  | refl => exact hs
  | tail _ hmove' ih => exact hmove _ _ hmove' ih

end Reaches

/-! ### The leaves built so far -/

/-- The tokens that have gone into the tree. -/
def built (s : State) : List Token :=
  (s.below.reverse.flatMap fun f => Tree.leavesOf f.children.reverse) ++ Tree.leavesOf s.top.children.reverse

@[simp]
theorem built_flush (s : State) : s.flush.built = s.built ++ s.trivia := by
  simp only [built, flush, List.reverse_append, List.reverse_reverse, Tree.leavesOf_append, Tree.leavesOf_leaf,
    List.append_assoc]

@[simp]
theorem built_openTight (s : State) (kind : Option Kind) : (s.openTight kind).built = s.built := by
  simp [built, openTight, Tree.leavesOf]

theorem built_closeNode {s t : State} (h : s.closeNode = .ok t) : t.built = s.built := by
  unfold closeNode at h
  split at h
  · cases h
  · rename_i frame below hbelow
    cases h
    cases hkind : s.top.kind with
    | none =>
        simp only [built, hbelow, List.reverse_append, Tree.leavesOf_append, List.reverse_cons, List.flatMap_append,
          List.flatMap_singleton, List.append_assoc]
    | some kind =>
        simp only [built, hbelow, List.reverse_cons, Tree.leavesOf_append, List.flatMap_append, List.flatMap_singleton,
          List.append_assoc, Tree.leavesOf_singleton, Tree.leaves]

/-- The first limit hit, once `e` is hit unless `allowed`. -/
def stoppedUnless (s : State) (allowed : Bool) (e : LimitError) : Option LimitError :=
  if allowed then s.stopped else s.stopped <|> some e

/-- Paying for a token changes what the limits look at only. -/
theorem charge_eq (s : State) (token : Token) :
    s.charge token = { s with
      consumed := s.consumed + 1
      stopped := s.stoppedUnless (s.limits.allowsToken s.consumed) .tokens
      journal := .consumed token :: s.journal } := by
  simp only [charge, stoppedUnless]
  split
  · rfl
  · rfl

/-- The state after the next significant token. -/
theorem bump_eq_ok {s t : State} (h : s.bump = .ok t) :
    ∃ token ts, s.ahead = token :: ts ∧
      t = { s with
        rest := ts
        offset := s.offset + Token.totalWidth s.trivia + token.width
        lastEnd := some (s.offset + Token.totalWidth s.trivia + token.width)
        top := ⟨s.top.kind, .leaf token :: ((s.trivia.map Tree.leaf).reverse ++ s.top.children)⟩
        consumed := s.consumed + 1
        stopped := s.stoppedUnless (s.limits.allowsToken s.consumed) .tokens
        journal := .consumed token :: s.journal } := by
  unfold bump at h
  split at h
  · cases h
  · rename_i token ts hahead
    simp only [charge_eq] at h
    cases h
    exact ⟨token, ts, hahead, rfl⟩

theorem built_bump {s t : State} (h : s.bump = .ok t) : t.built ++ t.rest = s.built ++ s.rest := by
  obtain ⟨token, ts, hahead, rfl⟩ := bump_eq_ok h
  simp only [built, List.reverse_cons, List.reverse_append, List.reverse_reverse, Tree.leavesOf_append,
    Tree.leavesOf_leaf, Tree.leavesOf_singleton, Tree.leaves, List.append_assoc, List.singleton_append]
  rw [← hahead, trivia_append_ahead]

theorem claim_eq_ok {s t : State} {position : Nat} {report : Except Fault Diagnostic}
    (h : s.claim position report = .ok t) :
    t = s ∧ s.claimed = some position ∨
      ∃ d, report = .ok d ∧ s.claimed ≠ some position ∧
        t = { s with claimed := some position, diagnostics := d :: s.diagnostics } := by
  unfold claim at h
  split at h
  · rename_i hclaimed
    cases h
    exact .inl ⟨rfl, hclaimed⟩
  · rename_i hclaimed
    cases report with
    | error fault => cases h
    | ok d =>
        cases h
        exact .inr ⟨d, rfl, hclaimed, rfl⟩

theorem closeNode_eq_ok {s t : State} (h : s.closeNode = .ok t) :
    ∃ frame below, s.below = frame :: below ∧
      t = { s with
        top := { frame with
          children := match s.top.kind with
            | some kind => Tree.node kind s.top.children.reverse :: frame.children
            | none => s.top.children ++ frame.children }
        below } := by
  unfold closeNode at h
  split at h
  · cases h
  · rename_i frame below hbelow
    cases h
    exact ⟨frame, below, hbelow, rfl⟩

/-- Entering an expression changes the depth or stops the parse. -/
theorem descend_eq (s : State) :
    ∃ depth, s.descend = { s with
      depth
      stopped := s.stoppedUnless (s.limits.allowsDepth s.depth) .depth
      journal := .entered s.depth :: s.journal } := by
  simp only [descend, stop, stoppedUnless]
  split
  · exact ⟨s.depth + 1, rfl⟩
  · exact ⟨s.depth, rfl⟩

theorem Move.built_append_rest {s t : State} (h : Move s t) : t.built ++ t.rest = s.built ++ s.rest := by
  cases h with
  | flushed =>
      rw [built_flush, List.append_assoc]
      exact congrArg (s.built ++ ·) s.trivia_append_ahead
  | opened kind => exact congrArg (· ++ s.rest) (built_openTight s kind)
  | closed h =>
      rw [built_closeNode h]
      obtain ⟨frame, below, -, rfl⟩ := closeNode_eq_ok h
      rfl
  | bumped h => exact built_bump h
  | claimed h =>
      obtain ⟨rfl, -⟩ | ⟨d, -, -, rfl⟩ := claim_eq_ok h
      · rfl
      · rfl
  | descended =>
      obtain ⟨depth, hdescend⟩ := s.descend_eq
      rw [hdescend]
      rfl
  | wrapped kind _ => rfl
  | remembered kind => rfl
  | forgotten h => rfl
  | ascended => rfl

theorem Reaches.built_append_rest {s t : State} (h : Reaches s t) : t.built ++ t.rest = s.built ++ s.rest :=
  h.preserves (p := fun u => u.built ++ u.rest = s.built ++ s.rest) rfl
    fun _ _ hmove ih => hmove.built_append_rest.trans ih

/-! ### Positions -/

theorem ahead_flush (s : State) : s.flush.ahead = s.ahead := dropTrivia_dropTrivia s.rest

theorem trivia_flush (s : State) : s.flush.trivia = [] := by
  have hsplit := s.flush.trivia_append_ahead
  rw [ahead_flush] at hsplit
  exact List.append_left_eq_self.mp hsplit

theorem totalWidth_rest (s : State) :
    Token.totalWidth s.rest = Token.totalWidth s.trivia + Token.totalWidth s.ahead := by
  rw [← Token.totalWidth_append, trivia_append_ahead]

@[simp]
theorem currentSpan_flush (s : State) : s.flush.currentSpan = s.currentSpan := by
  simp only [currentSpan, ahead_flush, trivia_flush]
  split
  · rfl
  · simp only [flush, Token.totalWidth_nil, Nat.add_zero]

/-- The tokens ahead lie between the offset and the end of the source, and no open delimiter behind the next one. -/
structure Placed (s : State) : Prop where
  offset_add : s.offset + Token.totalWidth s.rest = s.length
  delimiter_le : ∀ d ∈ s.delimiters, d.span.start ≤ s.currentSpan.start

namespace Placed

variable {s t : State}

/-- The next token starts at or behind the offset and before its own end, which the source reaches. -/
theorem currentSpan (h : s.Placed) :
    s.offset ≤ s.currentSpan.start ∧ s.currentSpan.start ≤ s.currentSpan.stop ∧ s.currentSpan.stop ≤ s.length := by
  have hoffset := h.offset_add
  have hwidth := s.totalWidth_rest
  unfold State.currentSpan
  split
  · simp only [Span.point]
    omega
  · rename_i token ts hahead
    rw [hahead, Token.totalWidth_cons] at hwidth
    dsimp only
    omega

theorem flush (h : s.Placed) : s.flush.Placed := by
  have hoffset := h.offset_add
  have hwidth := s.totalWidth_rest
  constructor
  · simp only [State.flush]
    omega
  · intro d hd
    rw [currentSpan_flush]
    exact h.delimiter_le d hd

theorem bump (h : s.Placed) (hbump : s.bump = .ok t) : t.Placed := by
  obtain ⟨token, ts, hahead, rfl⟩ := bump_eq_ok hbump
  have hstart : s.currentSpan.start = s.offset + Token.totalWidth s.trivia := by
    simp only [State.currentSpan, hahead]
  have hwidth := s.totalWidth_rest
  rw [hahead, Token.totalWidth_cons] at hwidth
  have hoffset := h.offset_add
  have hends : s.offset + Token.totalWidth s.trivia + token.width + Token.totalWidth ts = s.length := by omega
  refine ⟨hends, fun d hd => ?_⟩
  -- The next token cannot start before the one that was consumed ends.
  have hnext := currentSpan ⟨hends, fun _ h => nomatch h⟩ (s := { s with
    rest := ts
    offset := s.offset + Token.totalWidth s.trivia + token.width
    delimiters := [] })
  have hle := h.delimiter_le d hd
  refine Nat.le_trans ?_ hnext.1
  rw [hstart] at hle
  exact Nat.le_trans hle (Nat.le_add_right _ _)

end Placed

theorem Move.placed {s t : State} (h : Move s t) (hs : s.Placed) : t.Placed := by
  cases h with
  | flushed => exact hs.flush
  | bumped h => exact hs.bump h
  | closed h =>
      obtain ⟨frame, below, -, rfl⟩ := closeNode_eq_ok h
      exact ⟨hs.offset_add, hs.delimiter_le⟩
  | claimed h =>
      obtain ⟨rfl, -⟩ | ⟨d, -, -, rfl⟩ := claim_eq_ok h
      · exact hs
      · exact ⟨hs.offset_add, hs.delimiter_le⟩
  | remembered kind =>
      refine ⟨hs.offset_add, fun d hd => ?_⟩
      obtain rfl | hd := List.mem_cons.mp hd
      · exact Nat.le_refl _
      · exact hs.delimiter_le d hd
  | forgotten h =>
      refine ⟨hs.offset_add, fun d hd => hs.delimiter_le d ?_⟩
      rw [h]
      exact List.mem_cons_of_mem _ hd
  | descended =>
      obtain ⟨depth, hdescend⟩ := s.descend_eq
      rw [hdescend]
      exact ⟨hs.offset_add, hs.delimiter_le⟩
  | opened kind => exact ⟨hs.offset_add, hs.delimiter_le⟩
  | wrapped kind _ => exact ⟨hs.offset_add, hs.delimiter_le⟩
  | ascended => exact ⟨hs.offset_add, hs.delimiter_le⟩

theorem placed_start (limits : Limits) (tokens : List Token) : (start limits tokens).Placed := by
  refine ⟨Nat.zero_add _, fun d hd => ?_⟩
  cases hd

/-! ### The bottom of the tree -/

/-- The frame that all others lie on. -/
def bottom (s : State) : Frame := s.below.getLast?.getD s.top

theorem bottom_cons {s : State} {frame : Frame} {below : List Frame} (h : s.below = frame :: below) :
    s.bottom = below.getLast?.getD frame := by
  rw [bottom, h, List.getLast?_cons]
  rfl

theorem Move.kind_bottom {s t : State} (h : Move s t) : t.bottom.kind = s.bottom.kind := by
  cases h with
  | closed h =>
      obtain ⟨frame, below, hbelow, rfl⟩ := closeNode_eq_ok h
      rw [bottom_cons hbelow]
      simp only [bottom]
      cases below.getLast? <;> rfl
  | bumped h =>
      obtain ⟨token, ts, -, rfl⟩ := bump_eq_ok h
      simp only [bottom]
      cases s.below.getLast? <;> rfl
  | claimed h =>
      obtain ⟨rfl, -⟩ | ⟨d, -, -, rfl⟩ := claim_eq_ok h
      · rfl
      · rfl
  | flushed =>
      simp only [bottom, flush]
      cases s.below.getLast? <;> rfl
  | opened kind => exact congrArg Frame.kind (bottom_cons (s := s.openTight kind) rfl)
  | wrapped kind hbelow =>
      obtain ⟨frame, hframe⟩ := Option.ne_none_iff_exists'.mp (mt List.getLast?_eq_none_iff.mp hbelow)
      simp only [bottom, wrap, hframe, Option.getD_some]
  | descended =>
      obtain ⟨depth, hdescend⟩ := s.descend_eq
      rw [hdescend]
      rfl
  | remembered kind => rfl
  | forgotten h => rfl
  | ascended => rfl

theorem Reaches.kind_bottom {s t : State} (h : Reaches s t) : t.bottom.kind = s.bottom.kind :=
  h.preserves (p := fun u => u.bottom.kind = s.bottom.kind) rfl fun _ _ hmove ih => hmove.kind_bottom.trans ih

/-! ### Stopping -/

theorem isSome_stoppedUnless {s : State} {allowed : Bool} {e : LimitError} (h : s.isStopped = true) :
    (s.stoppedUnless allowed e).isSome = true := by
  rw [stoppedUnless]
  split
  · exact h
  · obtain ⟨first, hfirst⟩ := Option.isSome_iff_exists.mp h
    rw [hfirst]
    rfl

theorem Move.isStopped {s t : State} (h : Move s t) (hs : s.isStopped = true) : t.isStopped = true := by
  cases h with
  | bumped h =>
      obtain ⟨token, ts, -, rfl⟩ := bump_eq_ok h
      exact isSome_stoppedUnless hs
  | descended =>
      obtain ⟨depth, hdescend⟩ := s.descend_eq
      rw [hdescend]
      exact isSome_stoppedUnless hs
  | closed h =>
      obtain ⟨frame, below, -, rfl⟩ := closeNode_eq_ok h
      exact hs
  | claimed h =>
      obtain ⟨rfl, -⟩ | ⟨d, -, -, rfl⟩ := claim_eq_ok h
      · exact hs
      · exact hs
  | flushed => exact hs
  | opened kind => exact hs
  | wrapped kind _ => exact hs
  | remembered kind => exact hs
  | forgotten h => exact hs
  | ascended => exact hs

theorem Reaches.isStopped {s t : State} (h : Reaches s t) (hs : s.isStopped = true) : t.isStopped = true :=
  h.preserves hs fun _ _ hmove => hmove.isStopped

theorem isStopped_descend {s : State} (h : ¬ s.limits.allowsDepth s.depth = true) : s.descend.isStopped = true := by
  rw [descend, if_neg h]
  cases hfirst : s.stopped <;> simp [isStopped, stop]

/-- No limit is set, and none was hit. -/
def Unlimited (s : State) : Prop := s.limits = .none ∧ s.stopped = none

theorem Unlimited.stoppedUnless_tokens {s : State} (h : s.Unlimited) :
    s.stoppedUnless (s.limits.allowsToken s.consumed) .tokens = none := by
  rw [h.1]
  exact h.2

theorem Unlimited.stoppedUnless_depth {s : State} (h : s.Unlimited) :
    s.stoppedUnless (s.limits.allowsDepth s.depth) .depth = none := by
  rw [h.1]
  exact h.2

theorem Unlimited.descend_eq {s : State} (h : s.Unlimited) :
    s.descend = { s with depth := s.depth + 1, journal := .entered s.depth :: s.journal } := by
  rw [descend, h.1]
  rfl

theorem Move.unlimited {s t : State} (h : Move s t) (hs : s.Unlimited) : t.Unlimited := by
  cases h with
  | bumped h =>
      obtain ⟨token, ts, -, rfl⟩ := bump_eq_ok h
      exact ⟨hs.1, hs.stoppedUnless_tokens⟩
  | descended =>
      obtain ⟨depth, hdescend⟩ := s.descend_eq
      rw [hdescend]
      exact ⟨hs.1, hs.stoppedUnless_depth⟩
  | closed h =>
      obtain ⟨frame, below, -, rfl⟩ := closeNode_eq_ok h
      exact hs
  | claimed h =>
      obtain ⟨rfl, -⟩ | ⟨d, -, -, rfl⟩ := claim_eq_ok h
      · exact hs
      · exact hs
  | flushed => exact hs
  | opened kind => exact hs
  | wrapped kind _ => exact hs
  | remembered kind => exact hs
  | forgotten h => exact hs
  | ascended => exact hs

theorem Reaches.unlimited {s t : State} (h : Reaches s t) (hs : s.Unlimited) : t.Unlimited :=
  h.preserves hs fun _ _ hmove => hmove.unlimited

end State

end Parse

end Transducer
