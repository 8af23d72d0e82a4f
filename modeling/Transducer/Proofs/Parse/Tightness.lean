import Transducer.Proofs.Parse.Astray
import Transducer.Proofs.Parse.Pointing

/-!
# Nodes have no trivia at their edges

Trivia moves into the tree in front of the next token, or when a node is opened in front of one; either way it goes to
the frame that is open then. A node that is opened behind the trivia starts with a significant token, and one that is
closed right behind a token ends with it. The goals on the agenda say which frames are closed like that: all statements
and expressions, but neither functions and their parameters, nor argument lists, nor skipped tokens.

A significant token is the last one built while a statement is being read. This gets lost where a node is opened, and is
regained with the next token. A parse that has stopped does not regain it, but then there is no tree either.
-/

namespace Transducer

/-- Nodes that leave the trivia around them to others. -/
def Kind.isTight : Kind → Bool
  | .varDef | .importStmt | .returnStmt | .compose | .union | .diff | .concat | .output | .weight | .repetition
  | .closure | .ref | .str | .nested | .call => true
  | _ => false

namespace Token

/-- The first of the tokens, if there is one, is no trivia. -/
def StartsSignificant (ts : List Token) : Prop := ∀ t ∈ ts.head?, t.isTrivia = false

/-- There are tokens, and the last one is no trivia. -/
structure Sealed (ts : List Token) : Prop where
  ne_nil : ts ≠ []
  ends : EndsSignificant ts

variable {ts us : List Token}

theorem Sealed.append (h : Sealed us) (ts : List Token) : Sealed (ts ++ us) := by
  refine ⟨List.append_ne_nil_of_right_ne_nil ts h.ne_nil, fun t ht => h.ends t ?_⟩
  rwa [List.getLast?_append_of_ne_nil ts h.ne_nil] at ht

theorem StartsSignificant.of_append (h : StartsSignificant (ts ++ us)) (hts : ts ≠ []) : StartsSignificant ts := by
  intro t ht
  apply h
  rwa [List.head?_append_of_ne_nil ts hts]

theorem sealed_concat {t : Token} (ht : t.isTrivia = false) (ts : List Token) : Sealed (ts ++ [t]) := by
  have hsingle : Sealed [t] := by
    refine ⟨List.cons_ne_nil t [], fun u hu => ?_⟩
    cases hu
    exact ht
  exact hsingle.append ts

end Token

/-- No tight node of the tree is empty, starts with trivia or ends with trivia. -/
inductive Tree.Tight : Tree → Prop where
  | leaf (t : Token) : Tight (.leaf t)
  | node {k : Kind} {cs : List Tree}
      (hedges : k.isTight = true → Token.StartsSignificant (leavesOf cs) ∧ Token.Sealed (leavesOf cs))
      (hchildren : ∀ c ∈ cs, Tight c) : Tight (.node k cs)

namespace Parse

open State Token

/-! ### Frames -/

namespace Frame

def leaves (f : Frame) : List Token := Tree.leavesOf f.children.reverse

/-- Every node that the frame may become is tight. -/
def isTight (f : Frame) : Bool := f.kind.all Kind.isTight

end Frame

/-- Frames, innermost one first, in front of the tokens ahead. All trees they hold are tight, and where a slot is marked
the frame is to become a tight node, so it starts with a significant token. -/
inductive Stacked : List Bool → List Frame → List Token → Prop where
  | nil (ts : List Token) : Stacked [] [] ts
  | cons {tight : Bool} {slots : List Bool} {f : Frame} {fs : List Frame} {ts : List Token} (hkind : f.isTight = tight)
      (hchildren : ∀ c ∈ f.children, c.Tight) (hstart : tight = true → StartsSignificant (f.leaves ++ ts))
      (hbelow : Stacked slots fs (f.leaves ++ ts)) : Stacked (tight :: slots) (f :: fs) ts

namespace Stacked

variable {slots : List Bool} {f g : Frame} {fs : List Frame} {ts us : List Token}

/-- Tokens go into the innermost frame, or it is named. -/
theorem replace (h : Stacked slots (f :: fs) ts) (hkind : g.isTight = f.isTight)
    (hchildren : (∀ c ∈ f.children, c.Tight) → ∀ c ∈ g.children, c.Tight) (hleaves : g.leaves ++ us = f.leaves ++ ts) :
    Stacked slots (g :: fs) us := by
  cases h with
  | cons hkind' hchildren' hstart hbelow =>
      refine .cons (hkind.trans hkind') (hchildren hchildren') ?_ ?_
      · rw [hleaves]
        exact hstart
      · rw [hleaves]
        exact hbelow

theorem opened (h : Stacked slots fs ts) (kind : Option Kind)
    (hstart : kind.all Kind.isTight = true → StartsSignificant ts) :
    Stacked (kind.all Kind.isTight :: slots) (⟨kind, []⟩ :: fs) ts :=
  .cons rfl (fun _ hc => nomatch hc) hstart h

/-- What the frame below holds once the innermost one is closed. -/
theorem closed {tight : Bool} (h : Stacked (tight :: slots) (f :: g :: fs) ts)
    (hsealed : tight = true → Sealed f.leaves) :
    Stacked slots ({ g with
      children := match f.kind with
        | some kind => Tree.node kind f.children.reverse :: g.children
        | none => f.children ++ g.children } :: fs) ts := by
  cases h with
  | cons hkind hchildren hstart hbelow =>
      refine hbelow.replace rfl (fun hg => ?_) ?_
      · dsimp only
        split
        · rename_i kind heq
          have hnode : (Tree.node kind f.children.reverse).Tight := by
            refine .node (fun htight => ?_) fun c hc => hchildren c (List.mem_reverse.mp hc)
            have htrue : tight = true := by
              rw [← hkind, Frame.isTight, heq]
              exact htight
            -- The frame is not empty, so the token that it starts with is its own and not one ahead.
            have hend := hsealed htrue
            exact ⟨(hstart htrue).of_append hend.ne_nil, hend⟩
          exact List.forall_mem_cons.mpr ⟨hnode, hg⟩
        · exact List.forall_mem_append.mpr ⟨hchildren, hg⟩
      · simp only [Frame.leaves]
        split
        · simp only [List.reverse_cons, Tree.leavesOf_append, Tree.leavesOf_singleton, Tree.leaves, List.append_assoc]
        · simp only [List.reverse_append, Tree.leavesOf_append, List.append_assoc]

end Stacked

/-! ### States -/

namespace State

/-- The last token that went into the open frame is significant. -/
def Ends (s : State) : Prop := Sealed s.top.leaves

/-- Unless a limit was hit, the frames fit the slots, and if `p` holds a significant token was built last. -/
def Tidy (slots : List Bool) (p : Prop) (s : State) : Prop :=
  s.isStopped = false → Stacked slots (s.top :: s.below) s.rest ∧ (p → s.Ends)

variable {slots : List Bool} {tight : Bool} {p q : Prop} {s t : State}

theorem leaves_flush (s : State) : s.flush.top.leaves = s.top.leaves ++ s.trivia := by
  simp only [Frame.leaves, flush, List.reverse_append, List.reverse_reverse, Tree.leavesOf_append, Tree.leavesOf_leaf]

theorem tight_trivia (s : State) : ∀ c ∈ (s.trivia.map Tree.leaf).reverse, c.Tight := by
  intro c hc
  obtain ⟨token, -, rfl⟩ := List.mem_map.mp (List.mem_reverse.mp hc)
  exact .leaf token

theorem startsSignificant_ahead (s : State) : StartsSignificant s.ahead := by
  intro token htoken
  obtain ⟨rest, hrest⟩ := List.head?_eq_some_iff.mp htoken
  exact not_isTrivia_of_ahead hrest

theorem atBoundary_congr (h : t.ahead = s.ahead) : t.atBoundary = s.atBoundary := by
  have hfollowed : t.isFollowedBy .equals = s.isFollowedBy .equals := by
    rw [isFollowedBy, isFollowedBy, h]
  rw [atBoundary, atBoundary, current_congr h, hfollowed]

theorem looksAtAny_of_atOperand (h : s.atOperand = true) : s.looksAtAny .exprFirst = true := by
  rw [atOperand, Bool.and_eq_true] at h
  exact h.1

namespace Tidy

theorem weaken (h : s.Tidy slots p) (himp : q → p) : s.Tidy slots q :=
  fun hgo => ⟨(h hgo).1, fun hq => (h hgo).2 (himp hq)⟩

/-- A move goes from a parse that goes on to one that does. -/
theorem move {slots' : List Bool} (h : s.Tidy slots p) (hmove : Move s t)
    (hstep : Stacked slots (s.top :: s.below) s.rest → (p → s.Ends) →
      Stacked slots' (t.top :: t.below) t.rest ∧ (q → t.Ends)) : t.Tidy slots' q := by
  intro hgo
  have hgo' : s.isStopped = false := Bool.eq_false_iff.mpr fun hstopped => by
    rw [hmove.isStopped hstopped] at hgo
    cases hgo
  exact hstep (h hgo').1 (h hgo').2

theorem flush (h : s.Tidy slots p) : s.flush.Tidy slots False := by
  refine h.move .flushed fun hstack _ => ⟨hstack.replace rfl ?_ ?_, False.elim⟩
  · exact fun hchildren => List.forall_mem_append.mpr ⟨s.tight_trivia, hchildren⟩
  · rw [leaves_flush, List.append_assoc]
    exact congrArg (s.top.leaves ++ ·) s.trivia_append_ahead

/-- A frame that is opened in front of trivia takes it along, so no tight node may come of it. -/
theorem openTight (h : s.Tidy slots p) (kind : Option Kind)
    (hstart : kind.all Kind.isTight = true → StartsSignificant s.rest) :
    (s.openTight kind).Tidy (kind.all Kind.isTight :: slots) False :=
  h.move (.opened kind) fun hstack _ => ⟨hstack.opened kind hstart, False.elim⟩

theorem openNode (h : s.Tidy slots p) (k : Kind) : (s.openNode k).Tidy (k.isTight :: slots) False :=
  h.flush.openTight (some k) fun _ => s.startsSignificant_ahead

theorem mark (h : s.Tidy slots p) : s.mark.Tidy (true :: slots) False :=
  h.flush.openTight none fun _ => s.startsSignificant_ahead

theorem marks (h : s.Tidy slots p) (strengths : List Strength) :
    (strengths.foldl (fun s _ => s.mark) s).Tidy (List.replicate strengths.length true ++ slots) False := by
  induction strengths generalizing s slots p with
  | nil => exact h.weaken False.elim
  | cons strength strengths ih =>
      rw [List.length_cons, List.replicate_succ', List.append_assoc]
      exact ih h.mark

theorem wrap {k : Kind} (h : s.Tidy (true :: slots) p) (hk : k.isTight = true) : (s.wrap k).Tidy (true :: slots) p := by
  intro hgo
  obtain ⟨hstack, hends⟩ := h hgo
  cases hstack with
  | cons hkind hchildren hstart hbelow => exact ⟨.cons hk hchildren hstart hbelow, hends⟩

theorem bump (h : s.Tidy slots p) : Ensures s.bump (Tidy slots True) := by
  intro t ht
  refine h.move (.bumped ht) ?_
  obtain ⟨token, ts, hahead, rfl⟩ := bump_eq_ok ht
  have hleaves : Frame.leaves ⟨s.top.kind, .leaf token :: ((s.trivia.map Tree.leaf).reverse ++ s.top.children)⟩ =
      s.top.leaves ++ s.trivia ++ [token] := by
    simp [Frame.leaves, Tree.leaves]
  refine fun hstack _ => ⟨hstack.replace rfl ?_ ?_, fun _ => ?_⟩
  · intro hchildren
    exact List.forall_mem_cons.mpr ⟨.leaf token, List.forall_mem_append.mpr ⟨s.tight_trivia, hchildren⟩⟩
  · rw [hleaves, List.append_assoc, List.append_assoc, List.singleton_append, ← hahead, trivia_append_ahead]
  · rw [Ends, hleaves]
    exact sealed_concat (not_isTrivia_of_ahead hahead) _

/-- A tight node is closed right behind a token. What is built last stays the same. -/
theorem closeNode (h : s.Tidy (tight :: slots) p) (hp : tight = true → p) : Ensures s.closeNode (Tidy slots p) := by
  intro t ht
  refine h.move (.closed ht) fun hstack hends => ?_
  obtain ⟨frame, below, hbelow, rfl⟩ := closeNode_eq_ok ht
  rw [hbelow] at hstack
  refine ⟨hstack.closed fun htight => hends (hp htight), fun hp => ?_⟩
  have hleaves : Sealed (frame.leaves ++ s.top.leaves) := (hends hp).append frame.leaves
  simp only [Ends, Frame.leaves] at hleaves ⊢
  split
  · simpa [Tree.leaves] using hleaves
  · simpa using hleaves

theorem claim (h : s.Tidy slots p) (position : Nat) (report : Except Fault Diagnostic) :
    Ensures (s.claim position report) (Tidy slots p) := by
  intro t ht
  refine h.move (.claimed ht) fun hstack hends => ?_
  obtain ⟨rfl, -⟩ | ⟨d, -, -, rfl⟩ := claim_eq_ok ht
  · exact ⟨hstack, hends⟩
  · exact ⟨hstack, hends⟩

theorem descend (h : s.Tidy slots p) : s.descend.Tidy slots p := by
  refine h.move .descended fun hstack hends => ?_
  obtain ⟨depth, hdescend⟩ := s.descend_eq
  rw [hdescend]
  exact ⟨hstack, hends⟩

theorem withDelimiters (h : s.Tidy slots p) (delimiters : List Delimiter) : Tidy slots p { s with delimiters } := h

/-! ### Operations -/

theorem report (h : s.Tidy slots p) (issue : Issue) (detail : String) :
    Ensures (s.report issue detail) (Tidy slots p) :=
  h.claim _ _

theorem bump_or {r : Except Fault State} {c : Bool} (h : s.Tidy slots p) (hr : Ensures r (Tidy slots p)) :
    Ensures (if c then s.bump else r) (Tidy slots p) := by
  split
  · exact h.bump.mono fun _ ht => ht.weaken fun _ => trivial
  · exact hr

theorem skipOne (h : s.Tidy slots p) (k : Kind) : Ensures (s.skipOne k) (Tidy slots p) := h.bump_or (.ok h)

theorem expect (h : s.Tidy slots p) (k : Kind) (issue : Issue) (detail : String) :
    Ensures (s.expect k issue detail) (Tidy slots p) :=
  h.bump_or (h.report issue detail)

theorem expectSemicolon (h : s.Tidy slots p) (detail : String) : Ensures (s.expectSemicolon detail) (Tidy slots p) :=
  h.bump_or (h.claim _ _)

theorem openDelimiter (h : s.Tidy slots p) (k : Kind) : Ensures (s.openDelimiter k) (Tidy slots True) :=
  .check (h.withDelimiters _).bump

theorem closeDelimiter (h : s.Tidy slots p) (closer : Kind) (construct : String) :
    Ensures (s.closeDelimiter closer construct) (Tidy slots p) := by
  unfold State.closeDelimiter
  split
  · exact h.skipOne closer
  · rename_i d ds _
    have hforgot := h.withDelimiters ds
    dsimp only
    split
    · exact hforgot.bump_or (hforgot.claim _ _)
    · exact .error

theorem leafNode (h : s.Tidy slots p) (k : Kind) : Ensures (do (← (s.openNode k).bump).closeNode) (Tidy slots True) :=
  (h.openNode k).bump.bind fun _ ht => ht.closeNode fun _ => trivial

theorem unterminatedString (h : s.Tidy slots p) : Ensures s.unterminatedString (Tidy slots True) :=
  (h.claim _ _).bind fun _ ht => ht.leafNode .error

end Tidy

end State

/-! ### Agendas -/

namespace Goal

/-- The frames that a goal closes, innermost one first. The marked ones become tight nodes. -/
def slots : Goal → List Bool
  | .endSkipped | .arguments => [false, true]
  | .endStatement _ | .suffixOf _ | .endOutput | .endGroup => [true]
  | .parameters | .functionBody | .endBody | .endRecovery => [false]
  | .statements _ | .skip | .expression | .leaveExpression => []

/-- Goals that are done right behind a significant token. -/
def settles : Goal → Bool
  | .expression | .leaveExpression | .suffixOf _ | .endOutput | .arguments | .endGroup | .skip => true
  | _ => false

/-- Goals that may start behind trivia. -/
def isOutside : Goal → Bool
  | .statements _ | .parameters | .functionBody | .endBody | .endRecovery => true
  | _ => false

end Goal

def slotsOf (goals : List Goal) : List Bool := goals.flatMap Goal.slots

@[simp]
theorem slotsOf_nil : slotsOf [] = [] := rfl

@[simp]
theorem slotsOf_cons (g : Goal) (goals : List Goal) : slotsOf (g :: goals) = g.slots ++ slotsOf goals := rfl

@[simp]
theorem slotsOf_append (gs hs : List Goal) : slotsOf (gs ++ hs) = slotsOf gs ++ slotsOf hs := List.flatMap_append

theorem slotsOf_suffixes (strengths : List Strength) :
    slotsOf (strengths.map .suffixOf) = List.replicate strengths.length true := by
  induction strengths with
  | nil => rfl
  | cons strength strengths ih =>
      rw [List.map_cons, slotsOf_cons, ih]
      rfl

/-- The first goal asks for a significant token right before it. Skipping does so only if nothing is left to skip. -/
def Asks : List Goal → State → Prop
  | [], _ => False
  | .skip :: _, s => s.atEnd = true ∨ s.atBoundary = true
  | g :: _, _ => g.isOutside = false

def Settle (goals : List Goal) : Prop := ∀ g ∈ goals, g.settles = true

/-- Behind a goal that ends a statement the others are outside of it. -/
def Layered (goals : List Goal) : Prop := goals.Pairwise fun g h => g.settles = true ∨ h.isOutside = true

/-- A step inside a statement. -/
def TidyInside (slots : List Bool) (r : Step) : Prop :=
  Ensures r fun a => a.2.Tidy (slotsOf a.1 ++ slots) True ∧ Settle a.1

/-- A step that starts or ends a statement. -/
def TidyAround (slots : List Bool) (r : Step) : Prop :=
  Ensures r fun a => a.2.Tidy (slotsOf a.1 ++ slots) (Asks a.1 a.2) ∧ Layered a.1

section Rules

variable {slots : List Bool} {p : Prop} {s : State} {goals : List Goal} {r : Except Fault State}

theorem settle_nil : Settle [] := fun _ hg => nomatch hg

theorem Settle.cons {g : Goal} (hg : g.settles = true) (hgoals : Settle goals) : Settle (g :: goals) :=
  List.forall_mem_cons.mpr ⟨hg, hgoals⟩

theorem settle_suffixes (strengths : List Strength) : Settle (strengths.map .suffixOf) := by
  intro g hg
  obtain ⟨strength, -, rfl⟩ := List.mem_map.mp hg
  rfl

theorem tidyInside_leaving (hgoals : Settle goals) (h : Ensures r (Tidy (slotsOf goals ++ slots) True)) :
    TidyInside slots (leaving goals r) :=
  h.map fun _ ht => ⟨ht, hgoals⟩

theorem tidyInside_done (h : Ensures r (Tidy slots True)) : TidyInside slots (done r) :=
  tidyInside_leaving settle_nil h

end Rules

/-! ### Expressions -/

namespace State.Tidy

variable {slots : List Bool} {p : Prop} {s : State}

theorem string (h : s.Tidy slots p) : Ensures (Parse.string s) (Tidy slots True) := by
  unfold Parse.string
  refine (h.openNode .str).bump.bind fun t ht => (ht.skipOne .strVal).bind fun u hu => .check ?_
  exact hu.bump.bind fun v hv => hv.closeNode fun _ => trivial

theorem nestedExpression (next : Goal) (h : s.Tidy (next.slots ++ slots) True) (hnext : next.settles = true)
    (opener : String) : TidyInside slots (Parse.nestedExpression s opener next) := by
  have hgoals : Settle [next] := .cons hnext settle_nil
  have hslots : slotsOf [next] = next.slots := List.append_nil _
  unfold Parse.nestedExpression
  split
  · exact .ok ⟨hslots.symm ▸ h, .cons rfl hgoals⟩
  · exact tidyInside_leaving hgoals (hslots.symm ▸ h.report _ _)

theorem group (h : s.Tidy slots p) : TidyInside slots (Parse.group s) :=
  ((h.openNode .nested).openDelimiter .parenOpen).bind fun _ ht => ht.nestedExpression .endGroup rfl "("

theorem endArguments (h : s.Tidy (false :: true :: slots) True) : Ensures (Parse.endArguments s) (Tidy slots True) :=
  (h.closeDelimiter _ _).bind fun _ ht => (ht.closeNode fun _ => trivial).bind fun _ hu =>
    hu.closeNode fun _ => trivial

/-- An argument list takes the trivia in front of its bracket with it, but the call does not start with it. -/
theorem call (h : s.Tidy slots p) : TidyInside slots (Parse.call s) := by
  refine (h.openNode .call).bump.bind fun t ht => ?_
  have hargs : (t.openTight (some .args)).Tidy (false :: true :: slots) False :=
    ht.openTight _ fun htight => nomatch htight
  refine (hargs.openDelimiter .bracketOpen).bind fun u hu => ?_
  split
  · exact tidyInside_done hu.endArguments
  · exact hu.nestedExpression .arguments rfl "["

theorem moreArguments (h : s.Tidy (false :: true :: slots) True) : TidyInside slots (Parse.moreArguments s) := by
  unfold Parse.moreArguments
  split
  · exact h.bump.bind fun t ht => ht.nestedExpression .arguments rfl ","
  · exact tidyInside_done h.endArguments

theorem endGroup (h : s.Tidy (true :: slots) True) : Ensures (Parse.endGroup s) (Tidy slots True) :=
  (h.closeDelimiter _ _).bind fun _ ht => ht.closeNode fun _ => trivial

/-- Whatever stood last before an atom, a significant token does behind it. -/
theorem atom (h : s.Tidy slots p) (hfirst : s.looksAtAny .exprFirst = true) : TidyInside slots (Parse.atom s) := by
  unfold Parse.atom
  obtain hk | hk | hk | hk | hk := current_of_exprFirst hfirst
  · simp only [hk]
    split
    · exact h.call
    · exact tidyInside_done (h.leafNode .ref)
  · simp only [hk]
    exact tidyInside_done h.string
  · simp only [hk]
    exact tidyInside_done h.string
  · simp only [hk]
    exact tidyInside_done h.unterminatedString
  · simp only [hk]
    exact h.group

theorem operand (following : List Goal) (h : s.Tidy (slotsOf following ++ slots) p) (hfollowing : Settle following)
    (strength : Strength) (hfirst : s.looksAtAny .exprFirst = true) :
    TidyInside slots (Parse.operand strength following s) := by
  have hmarked : (strength.upTo.foldl (fun s _ => s.mark) s).looksAtAny .exprFirst = true := by
    rw [State.looksAtAny, current_congr (ahead_marks strength.upTo s)]
    exact hfirst
  refine ((h.marks strength.upTo).atom hmarked).bind fun a ha => .ok ⟨?_, ?_⟩
  · simpa only [slotsOf_append, slotsOf_suffixes, List.append_assoc] using ha.1
  · exact List.forall_mem_append.mpr ⟨List.forall_mem_append.mpr ⟨ha.2, settle_suffixes _⟩, hfollowing⟩

theorem operandAfter (following : List Goal) (h : s.Tidy (slotsOf following ++ slots) True)
    (hfollowing : Settle following) (operator : String) (strength : Strength) :
    TidyInside slots (Parse.operandAfter operator strength following s) := by
  unfold Parse.operandAfter
  split
  · rename_i hfirst
    exact h.operand following hfollowing strength hfirst
  · exact tidyInside_leaving hfollowing (h.report _ _)

theorem of_isStopped (h : s.isStopped = true) : s.Tidy slots p := by
  intro hgo
  rw [h] at hgo
  cases hgo

theorem expression (h : s.Tidy slots p) (hfirst : s.looksAtAny .exprFirst = true) :
    TidyInside slots (Parse.expression s) := by
  unfold Parse.expression
  split
  · refine h.descend.operand [.leaveExpression] (.cons rfl settle_nil) .compose ?_
    rw [State.looksAtAny, current_of_rest s.rest_descend]
    exact hfirst
  · rename_i hdepth
    have hnode : (s.descend.openNode .error).Tidy (false :: slots) True := of_isStopped (isStopped_descend hdepth)
    exact tidyInside_done (hnode.closeNode fun _ => trivial)

theorem bound (h : s.Tidy slots p) : Ensures (Parse.bound s) (Tidy slots p) := by
  unfold Parse.bound Parse.checkBound
  split
  · have hcheck : Ensures (if (readNumeral? s.currentText).isNone then
        s.report .invalidRepetitionBound s!"`{s.currentText}`" else .ok s) (Tidy slots p) := by
      split
      · exact h.report _ _
      · exact .ok h
    exact hcheck.bind fun t ht => ht.bump.mono fun u hu => hu.weaken fun _ => trivial
  · exact h.report _ _

theorem upperBound (h : s.Tidy slots p) : Ensures (Parse.upperBound s) (Tidy slots p) := by
  unfold Parse.upperBound
  split
  · exact h.bump.bind fun t ht => (ht.weaken fun _ => trivial).bound
  · exact .ok h

theorem bounds (h : s.Tidy (true :: slots) p) : Ensures (Parse.bounds s) (Tidy (true :: slots) True) :=
  ((h.wrap rfl).openDelimiter .braceOpen).bind fun _ ht => ht.bound.bind fun _ hu => hu.upperBound.bind fun _ hv =>
    hv.closeDelimiter _ _

theorem weightValue (h : s.Tidy (true :: slots) p) : Ensures (Parse.weightValue s) (Tidy (true :: slots) True) :=
  (h.wrap rfl).bump.bind fun _ ht => (ht.expect _ _ _).bind fun _ hu => hu.expect _ _ _

theorem chainLink {node : Kind} (h : s.Tidy (true :: slots) p) (hnode : node.isTight = true) (operator : String)
    (strength tighter : Strength) : TidyInside slots (Parse.chainLink node operator strength tighter s) :=
  (h.wrap hnode).bump.bind fun _ ht =>
    ht.operandAfter [.suffixOf strength] (.cons rfl settle_nil) operator tighter

theorem thenClose {r : Except Fault State} (h : Ensures r (Tidy (true :: slots) True)) :
    TidyInside slots (done do (← r).closeNode) :=
  tidyInside_done (h.bind fun _ ht => ht.closeNode fun _ => trivial)

theorem suffixStep (h : s.Tidy (true :: slots) True) (strength : Strength) :
    TidyInside slots (Parse.suffixStep strength s) := by
  have hclose : TidyInside slots (done s.closeNode) := tidyInside_done (h.closeNode fun _ => trivial)
  cases strength with
  | closure =>
      simp only [Parse.suffixStep]
      split
      · exact thenClose (h.wrap rfl).bump
      · exact hclose
  | repetition =>
      simp only [Parse.suffixStep]
      split
      · exact thenClose h.bounds
      · exact hclose
  | weight =>
      simp only [Parse.suffixStep]
      split
      · exact thenClose h.weightValue
      · exact hclose
  | output =>
      simp only [Parse.suffixStep]
      split
      · have hcolon : Ensures (s.wrap .output).bump (Tidy (true :: slots) True) := (h.wrap rfl).bump
        exact hcolon.bind fun t ht => ht.operandAfter [.endOutput] (.cons rfl settle_nil) ":" .weight
      · exact hclose
  | concat =>
      simp only [Parse.suffixStep]
      split
      · rename_i hoperand
        have hwrapped : (s.wrap .concat).Tidy (true :: slots) True := h.wrap rfl
        -- There is no operator to consume; the operand itself has a token.
        exact hwrapped.operand [.suffixOf .concat] (.cons rfl settle_nil) .output (looksAtAny_of_atOperand hoperand)
      · exact hclose
  | diff =>
      simp only [Parse.suffixStep]
      split
      · exact h.chainLink rfl "-" .diff .concat
      · exact hclose
  | union =>
      simp only [Parse.suffixStep]
      split
      · exact h.chainLink rfl "|" .union .diff
      · exact hclose
  | compose =>
      simp only [Parse.suffixStep]
      split
      · exact h.chainLink rfl "@" .compose .union
      · exact hclose

theorem skip (h : s.Tidy slots (s.atEnd = true ∨ s.atBoundary = true)) : TidyInside slots (Parse.skip s) := by
  unfold Parse.skip
  split
  · rename_i hstop
    refine .ok ⟨fun hgo => ⟨(h hgo).1, fun _ => (h hgo).2 ?_⟩, settle_nil⟩
    rw [hgo, Bool.or_false, Bool.or_eq_true] at hstop
    exact hstop
  · exact tidyInside_leaving (.cons rfl settle_nil) h.bump

end State.Tidy

/-! ### Statements -/

section Rules

variable {slots : List Bool} {s : State} {goals : List Goal} {r : Except Fault State}

theorem layered_pair {g h : Goal} (hgh : g.settles = true ∨ h.isOutside = true) : Layered [g, h] := by
  refine List.pairwise_cons.mpr ⟨fun h' hh => ?_, List.pairwise_singleton _ h⟩
  rw [List.mem_singleton.mp hh]
  exact hgh

theorem Settle.layered (h : Settle goals) : Layered goals :=
  List.Pairwise.imp_of_mem (fun hg _ _ => .inl (h _ hg))
    (List.pairwise_of_forall (R := fun _ _ => True) fun _ _ => trivial)

theorem tidyAround_leaving (hgoals : Layered goals) (h : Ensures r (Tidy (slotsOf goals ++ slots) True)) :
    TidyAround slots (leaving goals r) :=
  h.map fun _ ht => ⟨ht.weaken fun _ => trivial, hgoals⟩

theorem tidyAround_done {p : Prop} (h : Ensures r (Tidy slots p)) : TidyAround slots (done r) :=
  h.map fun _ ht => ⟨ht.weaken False.elim, .nil⟩

end Rules

namespace State.Tidy

variable {slots : List Bool} {p : Prop} {s : State}

/-- Tokens in front of the end of a statement are skipped, one at least. -/
theorem startSkipping (h : s.Tidy (true :: slots) p) (hgo : ¬ (s.atEnd || s.atBoundary) = true) (issue : Issue)
    (detail : String) : TidyAround slots (leaving [.skip, .endSkipped] ((s.openNode .error).report issue detail)) := by
  refine Ensures.map (((h.openNode .error).report issue detail).and (ensures_report _ issue detail)) fun t ht => ?_
  have hahead : t.ahead = s.ahead := by
    rw [State.ahead, ht.2]
    exact dropTrivia_dropTrivia s.rest
  -- Trivia stands last in the statement now, but nothing is asked before a token is skipped.
  refine ⟨ht.1.weaken fun hasks => hgo ?_, layered_pair (.inl rfl)⟩
  rw [Bool.or_eq_true]
  exact hasks.imp (fun hend => by rwa [State.atEnd, hahead] at hend) fun hboundary => by
    rwa [atBoundary_congr hahead] at hboundary

theorem statementBody (h : s.Tidy (true :: slots) True) (form : Form) :
    TidyAround slots (Parse.statementBody form s) := by
  unfold Parse.statementBody
  split
  · exact .ok ⟨h.weaken fun _ => trivial, layered_pair (.inl rfl)⟩
  · split
    · exact tidyAround_leaving (List.pairwise_singleton _ _) (h.report _ _)
    · rename_i hgo
      exact h.startSkipping hgo _ _

theorem endStatement (h : s.Tidy (true :: slots) True) (form : Form) :
    TidyAround slots (Parse.endStatement form s) := by
  unfold Parse.endStatement
  split
  · exact tidyAround_done ((h.expectSemicolon _).bind fun t ht => ht.closeNode fun _ => trivial)
  · rename_i hgo
    exact h.startSkipping hgo _ _

/-- A definition starts with a name or `export`, so a token is consumed even if the name is missing. -/
theorem definition (h : s.Tidy slots p) (hk : s.current = .id ∨ s.current = .kwExport) :
    TidyAround slots (Parse.definition s) := by
  have hopened := h.openNode .varDef
  have hexport : Ensures ((s.openNode .varDef).skipOne .kwExport) fun t =>
      t.Tidy (true :: slots) (t.current ≠ .id) := by
    unfold State.skipOne
    split
    · exact hopened.bump.mono fun t ht => ht.weaken fun _ => trivial
    · rename_i hlooks
      refine .ok (hopened.weaken fun hne => ?_)
      obtain hid | hexport := hk
      · exact hne ((current_openNode s .varDef).trans hid)
      · exact hlooks (looksAt_iff.mpr ((current_openNode s .varDef).trans hexport))
  refine Ensures.bind hexport fun t ht => ?_
  have hname : Ensures (t.expect .id .expectedName "for definition") (Tidy (true :: slots) True) := by
    unfold State.expect
    split
    · exact ht.bump
    · rename_i hlooks
      exact (ht.report _ _).mono fun u hu => hu.weaken fun _ hid => hlooks (looksAt_iff.mpr hid)
  exact hname.bind fun u hu => (hu.expect _ _ _).bind fun v hv => hv.statementBody .definition

theorem returnStatement (h : s.Tidy slots p) : TidyAround slots (Parse.returnStatement s) :=
  Ensures.check ((h.openNode .returnStmt).bump.bind fun _ ht => ht.statementBody .returned)

theorem importPath (h : s.Tidy slots True) : Ensures (Parse.importPath s) (Tidy slots True) := by
  unfold Parse.importPath
  split
  · exact h.string
  · exact h.string
  · exact h.unterminatedString
  · exact h.report _ _

theorem importStatement (h : s.Tidy slots p) : Ensures (Parse.importStatement s) (Tidy slots True) := by
  refine Ensures.check ((h.openNode .importStmt).bump.bind fun t ht => ht.importPath.bind fun u hu => ?_)
  refine (hu.expect _ _ _).bind fun v hv => (hv.expect _ _ _).bind fun w hw => ?_
  exact (hw.expectSemicolon _).bind fun x hx => hx.closeNode fun _ => trivial

/-! ### Functions -/

theorem endParameters (h : s.Tidy (false :: slots) p) : Ensures (Parse.endParameters s) (Tidy slots p) :=
  (h.closeDelimiter _ _).bind fun _ ht => ht.closeNode fun hloose => nomatch hloose

theorem openParameters (h : s.Tidy slots p) : Ensures (Parse.openParameters s) (Tidy (false :: slots) False) := by
  unfold Parse.openParameters
  split
  · exact h.bump.map fun t ht => ht.openTight (some .params) fun hparams => nomatch hparams
  · exact (h.report _ _).map fun t ht => ht.openNode .params

/-- The name of a function may be missing, and then trivia may stand last. -/
theorem functionStatement (h : s.Tidy slots p) : TidyAround slots (Parse.functionStatement s) := by
  refine Ensures.check ((h.openNode .funcDef).bump.bind fun t ht => ht.openParameters.bind fun u hu => ?_)
  split
  · refine (hu.openDelimiter .bracketOpen).bind fun v hv => ?_
    split
    · exact tidyAround_leaving (List.pairwise_singleton _ _) hv.endParameters
    · exact .ok ⟨hv.weaken fun _ => trivial, layered_pair (.inr rfl)⟩
  · refine (hu.report _ _).bind fun v hv => ?_
    refine Ensures.map (hv.closeNode fun hloose => nomatch hloose) fun w hw => ⟨hw.weaken fun hasks => ?_, ?_⟩
    · cases hasks
    · exact List.pairwise_singleton _ _

theorem parameters (h : s.Tidy (false :: slots) p) : TidyAround slots (Parse.parameters s) := by
  refine (h.expect _ _ _).bind fun t ht => ?_
  split
  · exact tidyAround_leaving (List.pairwise_singleton _ _) ht.bump
  · exact tidyAround_done ht.endParameters

theorem functionBody (h : s.Tidy (false :: slots) p) : TidyAround slots (Parse.functionBody s) := by
  unfold Parse.functionBody
  split
  · exact tidyAround_leaving (layered_pair (.inr rfl)) (h.openDelimiter _)
  · exact tidyAround_done ((h.report _ _).bind fun t ht => ht.closeNode fun hloose => nomatch hloose)

theorem endBody (h : s.Tidy (false :: slots) p) : Ensures (Parse.endBody s) (Tidy slots p) :=
  (h.closeDelimiter _ _).bind fun _ ht => ht.closeNode fun hloose => nomatch hloose

/-! ### Recovery -/

theorem recovery (h : s.Tidy slots p) (message : String) : TidyAround slots (Parse.recovery message s) :=
  ((h.openNode .error).report _ _).bind fun _ ht => tidyAround_leaving (layered_pair (.inl rfl)) ht.bump

theorem endRecovery (h : s.Tidy (false :: slots) p) : Ensures (Parse.endRecovery s) (Tidy slots p) :=
  (h.skipOne _).bind fun _ ht => ht.closeNode fun hloose => nomatch hloose

theorem endSkipped (h : s.Tidy (false :: true :: slots) True) : Ensures (Parse.endSkipped s) (Tidy slots True) :=
  (h.closeNode fun _ => trivial).bind fun _ ht => (ht.skipOne _).bind fun _ hu => hu.closeNode fun _ => trivial

theorem statement (h : s.Tidy slots p) : TidyAround slots (Parse.statement s) := by
  unfold Parse.statement
  split
  · rename_i hk
    exact h.definition (.inl hk)
  · rename_i hk
    exact h.definition (.inr hk)
  · exact tidyAround_done h.importStatement
  · exact h.functionStatement
  · exact h.returnStatement
  · exact h.recovery _

end State.Tidy

/-! ### Runs -/

section Runs

variable {slots : List Bool} {s : State} {g : Goal} {goals new : List Goal}

theorem asks_of_append (houtside : ∀ g ∈ goals, g.isOutside = true) (h : Asks (new ++ goals) s) : Asks new s := by
  cases new with
  | cons g new =>
      cases g with
      | _ => exact h
  | nil =>
      cases goals with
      | nil => exact h
      | cons g goals =>
          have hg := houtside g List.mem_cons_self
          cases g with
          | skip => cases hg
          | _ => exact absurd (hg.symm.trans h) (by decide)

theorem asks_cons (goals : List Goal) : Asks (g :: goals) s ↔ Asks [g] s := by
  cases g with
  | _ => exact Iff.rfl

theorem Settle.append (hnew : Settle new) (hgoals : Layered goals) : Layered (new ++ goals) :=
  List.pairwise_append.mpr ⟨hnew.layered, hgoals, fun g hg _ _ => .inl (hnew g hg)⟩

theorem Layered.append (hnew : Layered new) (hgoals : Layered goals) (houtside : ∀ g ∈ goals, g.isOutside = true) :
    Layered (new ++ goals) :=
  List.pairwise_append.mpr ⟨hnew, hgoals, fun _ _ g hg => .inr (houtside g hg)⟩

theorem Layered.outside (h : Layered (g :: goals)) (hg : g.settles = false) : ∀ h ∈ goals, h.isOutside = true := by
  intro h' hmem
  obtain hsettles | houtside := (List.pairwise_cons.mp h).1 h' hmem
  · rw [hg] at hsettles
    cases hsettles
  · exact houtside

theorem State.Tidy.statements {p : Prop} (h : s.Tidy slots p) (inBody : Bool) :
    TidyAround slots (Parse.statements inBody s) := by
  unfold Parse.statements
  split
  · exact .ok ⟨h.weaken False.elim, .nil⟩
  · have hfirst : TidyAround slots (if s.current = .braceClose then
        Parse.recovery "`\x7d` without an open function body" s else Parse.statement s) := by
      split
      · exact h.recovery _
      · exact h.statement
    have houtside : ∀ g ∈ [Goal.statements inBody], g.isOutside = true := List.forall_mem_singleton.mpr rfl
    refine hfirst.map fun a ha => ⟨?_, ha.2.append (List.pairwise_singleton _ _) houtside⟩
    have hslots : slotsOf (a.1 ++ [.statements inBody]) = slotsOf a.1 := by simp [Goal.slots]
    rw [hslots]
    exact ha.1.weaken (asks_of_append houtside)

theorem act_settles (hg : g.settles = true) (hentering : g = .expression → s.looksAtAny .exprFirst = true)
    (h : s.Tidy (g.slots ++ slots) (Asks [g] s)) : TidyInside slots (act g s) := by
  cases g with
  | expression => exact h.expression (hentering rfl)
  | leaveExpression => exact .ok ⟨h.weaken fun _ => rfl, settle_nil⟩
  | suffixOf strength => exact (h.weaken fun _ => rfl).suffixStep strength
  | endOutput => exact tidyInside_done ((h.weaken fun _ => rfl).closeNode fun _ => trivial)
  | arguments => exact (h.weaken fun _ => rfl).moreArguments
  | endGroup => exact tidyInside_done (h.weaken fun _ => rfl).endGroup
  | skip => exact h.skip
  | _ => cases hg

theorem act_around (hg : g.settles = false) (h : s.Tidy (g.slots ++ slots) (Asks [g] s)) :
    TidyAround slots (act g s) := by
  cases g with
  | statements inBody => exact h.statements inBody
  | parameters => exact h.parameters
  | functionBody => exact h.functionBody
  | endBody => exact tidyAround_done h.endBody
  | endRecovery => exact tidyAround_done h.endRecovery
  | endSkipped => exact tidyAround_done (h.weaken fun _ => rfl).endSkipped
  | endStatement form => exact (h.weaken fun _ => rfl).endStatement form
  | _ => cases hg

/-- What holds of the agenda and the state between two steps. -/
structure Trim (goals : List Goal) (s : State) : Prop where
  layered : Layered goals
  entering : Entering goals s
  tidy : s.Tidy (slotsOf goals ++ [false]) (Asks goals s)

namespace Trim

theorem start (limits : Limits) (tokens : List Token) : Trim [.statements false] (.start limits tokens) where
  layered := List.pairwise_singleton _ _
  entering := entering_start _
  tidy := fun _ => by
    refine ⟨.cons rfl (fun _ hc => nomatch hc) (fun hloose => nomatch hloose) (.nil _), fun hasks => ?_⟩
    cases hasks

theorem act (h : Trim (g :: goals) s) : Ensures (Parse.act g s) fun a => Trim (a.1 ++ goals) a.2 := by
  have htidy : s.Tidy (g.slots ++ (slotsOf goals ++ [false])) (Asks [g] s) := by
    have htidy := h.tidy.weaken (asks_cons goals).mpr
    rwa [slotsOf_cons, List.append_assoc] at htidy
  have hgoals : Layered goals := (List.pairwise_cons.mp h.layered).2
  cases hg : g.settles with
  | true =>
      have hfirst : g = .expression → s.looksAtAny .exprFirst = true := fun heq => h.entering.1 (congrArg some heq)
      refine ((act_settles hg hfirst htidy).and h.entering.act).mono fun a ha => ?_
      obtain ⟨⟨ht, hnew⟩, hentering⟩ := ha
      refine ⟨hnew.append hgoals, hentering, ?_⟩
      rw [slotsOf_append, List.append_assoc]
      exact ht.weaken fun _ => trivial
  | false =>
      have houtside := h.layered.outside hg
      refine ((act_around hg htidy).and h.entering.act).mono fun a ha => ?_
      obtain ⟨⟨ht, hnew⟩, hentering⟩ := ha
      refine ⟨hnew.append hgoals houtside, hentering, ?_⟩
      rw [slotsOf_append, List.append_assoc]
      exact ht.weaken (asks_of_append houtside)

theorem run (h : Trim goals s) : Ensures (Parse.run goals s) (Trim []) := by
  fun_induction Parse.run goals s with
  | case1 s => exact .ok h
  | case2 g goals s fault hact => exact .error
  | case3 g goals s new t hact ih => exact ih (h.act (new, t) hact)

end Trim

end Runs

end Parse

open Parse State in
/-- The trees of all sources are tight, broken ones included. -/
theorem tight_of_parse {limits : Limits} {source : String} {p : Parsed} (hparse : parse limits source = .ok p) :
    p.root.leaves = lex source ∧ p.root.Tight := by
  obtain ⟨s, hrun, hreached, hbelow, ⟨e, -, herror⟩ | ⟨hstopped, hend, hok⟩⟩ := ofTokens_eq limits (paired_lex source)
  · rw [parse, herror] at hparse
    cases hparse
  · rw [parse, hok] at hparse
    cases hparse
    have hgo : s.flush.isStopped = false := by
      rw [isStopped, show s.flush.stopped = none from hstopped]
      rfl
    have htidy := ((Trim.start limits (lex source)).run s hrun).tidy.flush
    obtain ⟨hstack, -⟩ := htidy hgo
    refine ⟨leaves_root hreached hbelow hend, ?_⟩
    cases hstack with
    | cons _ hchildren _ _ =>
        refine .node (fun hroot => ?_) fun c hc => hchildren c (List.mem_reverse.mp hc)
        cases hroot

end Transducer
