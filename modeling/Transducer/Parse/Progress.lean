import Transducer.Ensures
import Transducer.Parse.Goal

/-!
Why the agenda runs empty. `Goal.weight` and the number of tokens ahead make a measure that every step lowers:
a step either consumes a token, and then leaves goals of a bounded weight over, or it leaves goals over that
weigh less than the goal it worked on.
-/

namespace Transducer.Parse

/-- The end of a statement and an expression may leave other goals over without consuming a token. -/
def Goal.weight : Goal → Nat
  | .endStatement _ => 3
  | .expression => 11
  | _ => 1

def weightOf : List Goal → Nat
  | [] => 0
  | g :: goals => g.weight + weightOf goals

/-- More than the goals weigh that a single step can leave over. -/
def tokenWeight : Nat := 20

def measureOf (goals : List Goal) (s : State) : Nat := tokenWeight * s.rest.length + weightOf goals

@[simp]
theorem weightOf_append (gs hs : List Goal) : weightOf (gs ++ hs) = weightOf gs + weightOf hs := by
  induction gs with
  | nil => exact (Nat.zero_add _).symm
  | cons g gs ih => simp only [List.cons_append, weightOf, ih, Nat.add_assoc]

theorem weightOf_suffixes (ss : List Strength) : weightOf (ss.map .suffixOf) = ss.length := by
  induction ss with
  | nil => rfl
  | cons s ss ih =>
      simp only [List.map_cons, weightOf, ih, Goal.weight, List.length_cons]
      omega

namespace State

theorem length_ahead (s : State) : s.ahead.length ≤ s.rest.length :=
  (List.dropWhile_sublist _).length_le

@[simp] theorem rest_openTight (s : State) (k : Option Kind) : (s.openTight k).rest = s.rest := rfl

@[simp] theorem rest_openNode (s : State) (k : Kind) : (s.openNode k).rest = s.ahead := rfl

@[simp] theorem rest_wrap (s : State) (k : Kind) : (s.wrap k).rest = s.rest := rfl

@[simp] theorem rest_descend (s : State) : s.descend.rest = s.rest := by
  simp only [descend, stop]
  split <;> rfl

@[simp] theorem rest_ascend (s : State) : s.ascend.rest = s.rest := rfl

theorem ensures_bump (s : State) : Ensures s.bump fun t => t.rest.length < s.rest.length := by
  unfold bump
  have hle := s.length_ahead
  split
  · exact .error
  · rename_i t ts hahead
    rw [hahead] at hle
    exact .ok hle

theorem ensures_closeNode (s : State) : Ensures s.closeNode fun t => t.rest = s.rest := by
  unfold closeNode
  split
  · exact .error
  · exact .ok rfl

theorem ensures_claim (s : State) (position : Nat) (report : Except Fault Diagnostic) :
    Ensures (s.claim position report) fun t => t.rest = s.rest := by
  unfold claim
  split
  · exact .ok rfl
  · exact Ensures.map (p := fun _ => True) (fun _ _ => trivial) (fun _ _ => rfl)

theorem ensures_report (s : State) (issue : Issue) (detail : String) :
    Ensures (s.report issue detail) fun t => t.rest = s.rest := s.ensures_claim _ _

theorem ensures_skipOne (s : State) (k : Kind) :
    Ensures (s.skipOne k) fun t => t.rest.length ≤ s.rest.length := by
  unfold skipOne
  split
  · exact s.ensures_bump.mono fun _ h => Nat.le_of_lt h
  · exact .ok (Nat.le_refl _)

theorem ensures_expect (s : State) (k : Kind) (issue : Issue) (detail : String) :
    Ensures (s.expect k issue detail) fun t => t.rest.length ≤ s.rest.length := by
  unfold expect
  split
  · exact s.ensures_bump.mono fun _ h => Nat.le_of_lt h
  · exact (s.ensures_report issue detail).mono fun _ h => Nat.le_of_eq (congrArg List.length h)

theorem ensures_expect_of_looksAt {s : State} {k : Kind} (hk : s.looksAt k = true) (issue : Issue)
    (detail : String) : Ensures (s.expect k issue detail) fun t => t.rest.length < s.rest.length := by
  unfold expect
  rw [if_pos hk]
  exact s.ensures_bump

theorem ensures_expectSemicolon (s : State) (detail : String) :
    Ensures (s.expectSemicolon detail) fun t => t.rest.length ≤ s.rest.length := by
  unfold expectSemicolon
  split
  · exact s.ensures_bump.mono fun _ h => Nat.le_of_lt h
  · exact (s.ensures_claim _ _).mono fun _ h => Nat.le_of_eq (congrArg List.length h)

theorem ensures_openDelimiter (s : State) (k : Kind) :
    Ensures (s.openDelimiter k) fun t => t.rest.length < s.rest.length := by
  unfold openDelimiter
  exact Ensures.bind (p := fun _ => True) (fun _ _ => trivial) fun _ _ => ensures_bump _

theorem ensures_closeDelimiter (s : State) (closer : Kind) (construct : String) :
    Ensures (s.closeDelimiter closer construct) fun t => t.rest.length ≤ s.rest.length := by
  unfold closeDelimiter
  split
  · exact s.ensures_skipOne closer
  · dsimp only
    split
    · split
      · exact (ensures_bump _).mono fun _ h => Nat.le_of_lt h
      · exact (ensures_claim _ _ _).mono fun _ h => Nat.le_of_eq (congrArg List.length h)
    · exact .error

theorem ensures_unterminatedString (s : State) :
    Ensures s.unterminatedString fun t => t.rest.length < s.rest.length := by
  unfold unterminatedString
  refine (ensures_claim s _ _).bind fun t ht => (ensures_bump _).bind fun u hu => ?_
  refine (ensures_closeNode u).mono fun v hv => ?_
  have := t.length_ahead
  rw [ht] at this
  rw [hv]
  simp only [rest_openNode] at hu
  omega

theorem dropTrivia_dropTrivia (ts : List Token) :
    (ts.dropWhile Token.isTrivia).dropWhile Token.isTrivia = ts.dropWhile Token.isTrivia := by
  induction ts with
  | nil => rfl
  | cons t ts ih =>
      by_cases ht : t.isTrivia = true
      · rw [List.dropWhile_cons_of_pos ht, ih]
      · rw [List.dropWhile_cons_of_neg ht, List.dropWhile_cons_of_neg ht]

theorem ahead_mark (s : State) : s.mark.ahead = s.ahead := dropTrivia_dropTrivia s.rest

theorem ahead_marks (ss : List Strength) (s : State) : (ss.foldl (fun s _ => s.mark) s).ahead = s.ahead := by
  induction ss generalizing s with
  | nil => rfl
  | cons _ ss ih => rw [List.foldl_cons, ih, ahead_mark]

theorem length_rest_marks (ss : List Strength) (s : State) :
    (ss.foldl (fun s _ => s.mark) s).rest.length ≤ s.rest.length := by
  induction ss generalizing s with
  | nil => exact Nat.le_refl _
  | cons _ ss ih => exact Nat.le_trans (ih s.mark) s.length_ahead

theorem current_congr {s t : State} (h : s.ahead = t.ahead) : s.current = t.current := by
  simp only [current, h]

end State

open State

/-- The measure after a step is at most `bound`. -/
def Within (bound : Nat) (r : Step) : Prop := Ensures r fun a => measureOf a.1 a.2 ≤ bound

theorem within_leaving {r : Except Fault State} {gs : List Goal} {n bound : Nat}
    (h : Ensures r fun t => t.rest.length ≤ n) (hbound : tokenWeight * n + weightOf gs ≤ bound) :
    Within bound (leaving gs r) := by
  refine h.map fun t ht => ?_
  have : tokenWeight * t.rest.length ≤ tokenWeight * n := Nat.mul_le_mul_left _ ht
  simp only [measureOf]
  omega

theorem within_done {r : Except Fault State} {n bound : Nat}
    (h : Ensures r fun t => t.rest.length ≤ n) (hbound : tokenWeight * n ≤ bound) :
    Within bound (done r) := within_leaving  h hbound

theorem within_bind {α : Type} {r : Except Fault α} {p : α → Prop} {f : α → Step} {bound : Nat}
    (h : Ensures r p) (hf : ∀ a, p a → Within bound (f a)) : Within bound (r >>= f) := h.bind hf

theorem ensures_le {r : Except Fault State} {n m : Nat} (h : Ensures r fun t => t.rest.length < n)
    (hm : n ≤ m + 1) : Ensures r fun t => t.rest.length ≤ m := h.mono fun _ ht => by omega

theorem ensures_string (s : State) : Ensures (string s) fun t => t.rest.length < s.rest.length := by
  unfold string
  refine (ensures_bump _).bind fun t ht => (ensures_skipOne t _).bind fun u hu => ?_
  refine Ensures.bind (p := fun _ => True) (fun _ _ => trivial) fun _ _ => ?_
  refine (ensures_bump u).bind fun v hv => (ensures_closeNode v).mono fun w hw => ?_
  have := s.length_ahead
  rw [hw]
  simp only [rest_openNode] at ht
  omega

/-- Wrapping the next token in a node of its own. -/
theorem ensures_leafNode (s : State) (k : Kind) :
    Ensures (do let t ← (s.openNode k).bump; t.closeNode) fun t => t.rest.length < s.rest.length := by
  refine (ensures_bump _).bind fun t ht => (ensures_closeNode t).mono fun u hu => ?_
  have := s.length_ahead
  rw [hu]
  simp only [rest_openNode] at ht
  omega

theorem ensures_stray (s : State) : Ensures (stray s) fun t => t.rest.length ≤ s.rest.length := by
  unfold stray
  refine (ensures_report s _ _).bind fun t ht => ?_
  split
  · exact .ok (Nat.le_of_eq (congrArg List.length ht))
  · exact (ensures_leafNode t .error).mono fun u hu => by rw [ht] at hu; omega

theorem ensures_endArguments (s : State) :
    Ensures (endArguments s) fun t => t.rest.length ≤ s.rest.length := by
  unfold endArguments
  refine (ensures_closeDelimiter s _ _).bind fun t ht => (ensures_closeNode t).bind fun u hu => ?_
  exact (ensures_closeNode u).mono fun v hv => by rw [hv, hu]; exact ht

/-- A nested expression weighs what it is entered with. -/
theorem within_nestedExpression (s : State) (opener : String) {next : Goal} (hnext : next.weight = 1) :
    Within (tokenWeight * s.rest.length + 12) (nestedExpression s opener next) := by
  unfold nestedExpression
  split
  · refine .ok ?_
    have hexpr : Goal.expression.weight = 11 := rfl
    simp only [measureOf, weightOf, hnext, hexpr]
    omega
  · refine within_leaving ((ensures_report s _ _).mono fun _ h => Nat.le_of_eq (congrArg List.length h)) ?_
    simp [weightOf, hnext]

/-- An atom that consumes a token leaves at most a nested expression and its end over. -/
def atomBound (n : Nat) : Nat := tokenWeight * (n - 1) + 12

theorem within_consumed {s t : State} (h : t.rest.length < s.rest.length) {r : Step}
    (hr : Within (tokenWeight * t.rest.length + 12) r) : Within (atomBound s.rest.length) r := by
  refine hr.mono fun a ha => Nat.le_trans ha ?_
  simp only [atomBound, tokenWeight]
  omega

theorem within_consumed_done {s : State} {r : Except Fault State}
    (hr : Ensures r fun t => t.rest.length < s.rest.length) : Within (atomBound s.rest.length) (done r) := by
  refine within_done (ensures_le hr (m := s.rest.length - 1) (by omega)) ?_
  simp only [atomBound]
  omega

theorem within_group (s : State) : Within (atomBound s.rest.length) (group s) := by
  unfold group
  refine within_bind (ensures_openDelimiter _ _) fun t ht => ?_
  have := s.length_ahead
  simp only [rest_openNode] at ht
  exact within_consumed (by omega) (within_nestedExpression t "(" rfl)

theorem within_call (s : State) : Within (atomBound s.rest.length) (call s) := by
  unfold call
  refine within_bind (ensures_bump _) fun t ht => within_bind (ensures_openDelimiter _ _) fun u hu => ?_
  have := s.length_ahead
  simp only [rest_openNode, rest_openTight] at ht hu
  split
  · exact within_consumed_done ((ensures_endArguments u).mono fun v hv => by omega)
  · exact within_consumed (by omega) (within_nestedExpression u "[" rfl)

theorem within_atom {s : State} (h : s.looksAtAny .exprFirst = true) :
    Within (atomBound s.rest.length) (atom s) := by
  unfold atom
  split
  · split
    · exact within_call s
    · exact within_consumed_done (ensures_leafNode s .ref)
  · exact within_consumed_done (ensures_string s)
  · exact within_consumed_done (ensures_string s)
  · exact within_consumed_done (ensures_unterminatedString s)
  · exact within_group s
  · rename_i h1 h2 h3 h4 h5
    revert h
    simp only [looksAtAny, KindSet.contains, KindSet.exprFirst]
    generalize s.current = k at *
    cases k <;> simp_all

theorem rest_ne_nil_of_exprFirst {s : State} (h : s.looksAtAny .exprFirst = true) : 0 < s.rest.length := by
  cases hrest : s.rest with
  | nil =>
      have hcurrent : s.current = .error := by simp only [current, ahead, hrest, List.dropWhile_nil]
      rw [looksAtAny, hcurrent] at h
      exact absurd h (by decide)
  | cons t ts => simp

theorem within_atom_any (s : State) : Within (tokenWeight * s.rest.length) (atom s) := by
  by_cases h : s.looksAtAny .exprFirst = true
  · have := rest_ne_nil_of_exprFirst h
    refine (within_atom h).mono fun a ha => Nat.le_trans ha ?_
    simp only [atomBound, tokenWeight]
    omega
  · have hatom : atom s = done (stray s) := by
      unfold atom
      revert h
      simp only [looksAtAny]
      generalize s.current = k
      cases k <;> simp [KindSet.contains, KindSet.exprFirst]
    rw [hatom]
    exact within_done (ensures_stray s) (Nat.le_refl _)

theorem weightOf_operand (gs following : List Goal) (strength : Strength) :
    weightOf (gs ++ strength.upTo.map .suffixOf ++ following) =
      weightOf gs + strength.upTo.length + weightOf following := by
  rw [weightOf_append, weightOf_append, weightOf_suffixes]

theorem within_operand_of_atom {s : State} {strength : Strength} {following : List Goal} {bound : Nat}
    (h : Within bound (atom (strength.upTo.foldl (fun s _ => s.mark) s))) :
    Within (bound + strength.upTo.length + weightOf following) (operand strength following s) := by
  unfold operand
  refine h.bind fun a ha => .ok ?_
  simp only [measureOf, weightOf_operand] at ha ⊢
  omega

theorem within_operand_any (s : State) (strength : Strength) (following : List Goal) :
    Within (tokenWeight * s.rest.length + strength.upTo.length + weightOf following)
      (operand strength following s) := by
  refine (within_operand_of_atom (within_atom_any _)).mono fun a ha => Nat.le_trans ha ?_
  have := Nat.mul_le_mul_left tokenWeight (length_rest_marks strength.upTo s)
  omega

theorem within_operand {s : State} (h : s.looksAtAny .exprFirst = true) (strength : Strength)
    (following : List Goal) :
    Within (atomBound s.rest.length + strength.upTo.length + weightOf following)
      (operand strength following s) := by
  have hmarked : (strength.upTo.foldl (fun s _ => s.mark) s).looksAtAny .exprFirst = true := by
    rw [looksAtAny, current_congr (ahead_marks strength.upTo s)]
    exact h
  refine (within_operand_of_atom (within_atom hmarked)).mono fun a ha => Nat.le_trans ha ?_
  have := length_rest_marks strength.upTo s
  simp only [atomBound, tokenWeight]
  omega

theorem within_operandAfter (s : State) (operator : String) (strength : Strength) (following : List Goal) :
    Within (tokenWeight * s.rest.length + strength.upTo.length + weightOf following)
      (operandAfter operator strength following s) := by
  unfold operandAfter
  split
  · exact within_operand_any s strength following
  · refine within_leaving ((ensures_report s _ _).mono fun _ h => Nat.le_of_eq (congrArg List.length h)) ?_
    omega

theorem within_expression (s : State) : Within (tokenWeight * s.rest.length + 9) (expression s) := by
  unfold expression
  split
  · simpa [Strength.upTo, weightOf, Goal.weight] using within_operand_any s.descend .compose [.leaveExpression]
  · refine within_done ((ensures_closeNode _).mono fun t ht => ?_) (Nat.le_add_right _ 9)
    rw [ht, rest_openNode]
    exact Nat.le_trans (length_ahead _) (Nat.le_of_eq (by rw [rest_descend]))

theorem ensures_checkBound (s : State) : Ensures (checkBound s) fun t => t.rest = s.rest := by
  unfold checkBound
  split
  · exact ensures_report s _ _
  · exact .ok rfl

theorem ensures_bound (s : State) : Ensures (bound s) fun t => t.rest.length ≤ s.rest.length := by
  unfold bound
  split
  · refine (ensures_checkBound s).bind fun t ht => (ensures_bump t).mono fun u hu => ?_
    rw [ht] at hu
    exact Nat.le_of_lt hu
  · exact (ensures_report s _ _).mono fun _ h => Nat.le_of_eq (congrArg List.length h)

theorem ensures_upperBound (s : State) : Ensures (upperBound s) fun t => t.rest.length ≤ s.rest.length := by
  unfold upperBound
  split
  · exact (ensures_bump s).bind fun t ht => (ensures_bound t).mono fun u hu => by omega
  · exact .ok (Nat.le_refl _)

theorem ensures_bounds (s : State) : Ensures (bounds s) fun t => t.rest.length ≤ s.rest.length := by
  unfold bounds
  refine (ensures_openDelimiter _ _).bind fun t ht => (ensures_bound t).bind fun u hu => ?_
  refine (ensures_upperBound u).bind fun v hv => (ensures_closeDelimiter v _ _).mono fun w hw => ?_
  simp only [rest_wrap] at ht
  omega

theorem ensures_weightValue (s : State) : Ensures (weightValue s) fun t => t.rest.length ≤ s.rest.length := by
  unfold weightValue
  refine (ensures_bump _).bind fun t ht => (ensures_expect t _ _ _).bind fun u hu => ?_
  refine (ensures_expect u _ _ _).mono fun v hv => ?_
  simp only [rest_wrap] at ht
  omega

/-- A computation that is followed by the end of its node. -/
theorem ensures_thenClose {r : Except Fault State} {n : Nat} (h : Ensures r fun t => t.rest.length ≤ n) :
    Ensures (do (← r).closeNode) fun t => t.rest.length ≤ n :=
  h.bind fun t ht => (ensures_closeNode t).mono fun u hu => by rw [hu]; exact ht

theorem within_closeNode (s : State) : Within (tokenWeight * s.rest.length) (done s.closeNode) :=
  within_done ((ensures_closeNode s).mono fun _ h => Nat.le_of_eq (congrArg List.length h)) (Nat.le_refl _)

theorem within_chainLink (s : State) (node : Kind) (operator : String) (strength tighter : Strength) :
    Within (tokenWeight * s.rest.length) (chainLink node operator strength tighter s) := by
  unfold chainLink
  refine within_bind (ensures_bump _) fun t ht => ?_
  refine (within_operandAfter t operator tighter _).mono fun a ha => Nat.le_trans ha ?_
  have hlength : tighter.upTo.length ≤ 8 := by cases tighter <;> decide
  have hweight : weightOf [.suffixOf strength] = 1 := rfl
  simp only [rest_wrap] at ht
  simp only [tokenWeight]
  omega

theorem within_suffixStep (s : State) (strength : Strength) :
    Within (tokenWeight * s.rest.length) (suffixStep strength s) := by
  unfold suffixStep
  split
  · split
    · refine within_done (ensures_thenClose ?_) (Nat.le_refl _)
      exact (ensures_bump _).mono fun t ht => Nat.le_of_lt ht
    · exact within_closeNode s
  · split
    · exact within_done (ensures_thenClose (ensures_bounds s)) (Nat.le_refl _)
    · exact within_closeNode s
  · split
    · exact within_done (ensures_thenClose (ensures_weightValue s)) (Nat.le_refl _)
    · exact within_closeNode s
  · split
    · refine within_bind (ensures_bump _) fun t ht => ?_
      refine (within_operandAfter t ":" .weight _).mono fun a ha => Nat.le_trans ha ?_
      have hlength : Strength.weight.upTo.length = 3 := rfl
      have hweight : weightOf [.endOutput] = 1 := rfl
      simp only [rest_wrap] at ht
      simp only [tokenWeight]
      omega
    · exact within_closeNode s
  · split
    · rename_i hoperand
      have hfirst : (s.wrap .concat).looksAtAny .exprFirst = true := by
        simp only [atOperand, Bool.and_eq_true] at hoperand
        exact hoperand.1
      have := rest_ne_nil_of_exprFirst hfirst
      refine (within_operand hfirst .output _).mono fun a ha => Nat.le_trans ha ?_
      have hlength : Strength.output.upTo.length = 4 := rfl
      have hweight : weightOf [.suffixOf .concat] = 1 := rfl
      simp only [rest_wrap] at this
      simp only [rest_wrap, atomBound, tokenWeight]
      omega
    · exact within_closeNode s
  all_goals
    split
    · exact within_chainLink s _ _ _ _
    · exact within_closeNode s

theorem within_moreArguments (s : State) : Within (tokenWeight * s.rest.length) (moreArguments s) := by
  unfold moreArguments
  split
  · refine within_bind (ensures_bump s) fun t ht => ?_
    refine (within_nestedExpression t "," rfl).mono fun a ha => Nat.le_trans ha ?_
    simp only [tokenWeight]
    omega
  · exact within_done (ensures_endArguments s) (Nat.le_refl _)

theorem ensures_endGroup (s : State) : Ensures (endGroup s) fun t => t.rest.length ≤ s.rest.length :=
  ensures_thenClose (ensures_closeDelimiter s _ _)

theorem within_statementBody (form : Form) (s : State) :
    Within (tokenWeight * s.rest.length + 14) (statementBody form s) := by
  have hreport (t : State) (detail : String) (ht : t.rest.length ≤ s.rest.length) :
      Ensures (t.report .expectedExpression detail) fun u => u.rest.length ≤ s.rest.length :=
    (ensures_report t _ _).mono fun _ h => by rw [h]; exact ht
  have hexpr : weightOf [.expression, .endStatement form] = 14 := rfl
  have hend : weightOf [.endStatement form] = 3 := rfl
  have hskip : weightOf [.skip, .endSkipped] = 2 := rfl
  unfold statementBody
  split
  · exact .ok (by simp only [measureOf]; omega)
  · split
    · exact within_leaving (hreport s _ (Nat.le_refl _)) (by omega)
    · exact within_leaving (hreport _ _ s.length_ahead) (by omega)

theorem within_endStatement (form : Form) (s : State) :
    Within (tokenWeight * s.rest.length + 2) (endStatement form s) := by
  have hskip : weightOf [.skip, .endSkipped] = 2 := rfl
  unfold endStatement
  split
  · exact within_done (ensures_thenClose (ensures_expectSemicolon s _)) (by omega)
  · refine within_leaving ((ensures_report _ _ _).mono fun t h => ?_) (Nat.le_of_eq (by rw [hskip]))
    rw [h]
    exact s.length_ahead

/-- Statements consume at least one token. -/
def statementBound (n : Nat) : Nat := tokenWeight * (n - 1) + 14

theorem within_definition {s : State} (h : s.current = .id ∨ s.current = .kwExport) :
    Within (statementBound s.rest.length) (definition s) := by
  have hahead := s.length_ahead
  have hcurrent : (s.openNode .varDef).current = s.current := current_congr (dropTrivia_dropTrivia s.rest)
  have hname : Ensures (do let t ← (s.openNode .varDef).skipOne .kwExport; t.expect .id .expectedName "for definition")
      fun t => t.rest.length < s.rest.length := by
    by_cases hexport : s.current = .kwExport
    · have hlooks : (s.openNode .varDef).looksAt .kwExport = true := by simp [looksAt, hcurrent, hexport]
      rw [skipOne, if_pos hlooks]
      refine (ensures_bump _).bind fun t ht => (ensures_expect t _ _ _).mono fun u hu => ?_
      simp only [rest_openNode] at ht
      omega
    · have hid : s.current = .id := h.resolve_right hexport
      have hskip : (s.openNode .varDef).looksAt .kwExport = false := by simp [looksAt, hcurrent, hid]
      have hlooks : (s.openNode .varDef).looksAt .id = true := by simp [looksAt, hcurrent, hid]
      rw [skipOne, hskip]
      refine (ensures_expect_of_looksAt hlooks _ _).mono fun t ht => ?_
      simp only [rest_openNode] at ht
      omega
  have hall : Within (statementBound s.rest.length)
      ((do let t ← (s.openNode .varDef).skipOne .kwExport; t.expect .id .expectedName "for definition") >>=
        fun t => t.expect .equals .unexpectedToken "expected `=` after name" >>= statementBody .definition) := by
    refine within_bind hname fun t ht => within_bind (ensures_expect t _ _ _) fun u hu => ?_
    refine (within_statementBody .definition u).mono fun a ha => Nat.le_trans ha ?_
    simp only [statementBound, tokenWeight]
    omega
  unfold definition
  simpa only [bind_assoc] using hall

theorem within_returnStatement (s : State) : Within (statementBound s.rest.length) (returnStatement s) := by
  unfold returnStatement
  refine within_bind (p := fun _ => True) (fun _ _ => trivial) fun _ _ => within_bind (ensures_bump _) fun t ht => ?_
  refine (within_statementBody .returned t).mono fun a ha => Nat.le_trans ha ?_
  have := s.length_ahead
  simp only [rest_openNode] at ht
  simp only [statementBound, tokenWeight]
  omega

theorem ensures_importPath (s : State) : Ensures (importPath s) fun t => t.rest.length ≤ s.rest.length := by
  unfold importPath
  split
  · exact (ensures_string s).mono fun _ h => Nat.le_of_lt h
  · exact (ensures_string s).mono fun _ h => Nat.le_of_lt h
  · exact (ensures_unterminatedString s).mono fun _ h => Nat.le_of_lt h
  · exact (ensures_report s _ _).mono fun _ h => Nat.le_of_eq (congrArg List.length h)

theorem ensures_importStatement (s : State) :
    Ensures (importStatement s) fun t => t.rest.length < s.rest.length := by
  unfold importStatement
  refine Ensures.bind (p := fun _ => True) (fun _ _ => trivial) fun _ _ => (ensures_bump _).bind fun t ht => ?_
  refine (ensures_importPath t).bind fun u hu => (ensures_expect u _ _ _).bind fun v hv => ?_
  refine (ensures_expect v _ _ _).bind fun w hw => (ensures_expectSemicolon w _).bind fun x hx => ?_
  refine (ensures_closeNode x).mono fun y hy => ?_
  have := s.length_ahead
  rw [hy]
  simp only [rest_openNode] at ht
  omega

theorem within_importStatement (s : State) :
    Within (statementBound s.rest.length) (done (importStatement s)) := by
  refine within_done (ensures_le (ensures_importStatement s) (m := s.rest.length - 1) (by omega)) ?_
  simp only [statementBound]
  omega

theorem ensures_endParameters (s : State) :
    Ensures (endParameters s) fun t => t.rest.length ≤ s.rest.length :=
  ensures_thenClose (ensures_closeDelimiter s _ _)

theorem ensures_openParameters (s : State) :
    Ensures (openParameters s) fun t => t.rest.length ≤ s.rest.length := by
  unfold openParameters
  split
  · exact (ensures_bump s).map fun t ht => Nat.le_of_lt ht
  · refine (ensures_report s _ _).map fun t ht => ?_
    rw [rest_openNode, ← ht]
    exact t.length_ahead

theorem within_functionStatement (s : State) : Within (statementBound s.rest.length) (functionStatement s) := by
  have hbody : weightOf [.functionBody] = 1 := rfl
  have hparameters : weightOf [.parameters, .functionBody] = 2 := rfl
  have hahead := s.length_ahead
  unfold functionStatement
  refine within_bind (p := fun _ => True) (fun _ _ => trivial) fun _ _ => within_bind (ensures_bump _) fun t ht => ?_
  refine within_bind (ensures_openParameters t) fun u hu => ?_
  simp only [rest_openNode] at ht
  split
  · refine within_bind (ensures_openDelimiter u _) fun v hv => ?_
    split
    · refine within_leaving (ensures_endParameters v) ?_
      simp only [statementBound, tokenWeight]
      omega
    · refine .ok ?_
      simp only [measureOf, statementBound, tokenWeight]
      omega
  · refine within_bind (ensures_report u _ _) fun v hv => ?_
    refine within_leaving ((ensures_closeNode v).mono fun w hw => Nat.le_of_eq (congrArg List.length (hw.trans hv))) ?_
    simp only [statementBound, tokenWeight]
    omega

theorem within_recovery (message : String) (s : State) :
    Within (statementBound s.rest.length) (recovery message s) := by
  have hskip : weightOf [.skip, .endRecovery] = 2 := rfl
  have hahead := s.length_ahead
  unfold recovery
  refine within_bind (ensures_report _ _ _) fun t ht => ?_
  refine within_leaving (ensures_le (ensures_bump t) (m := s.rest.length - 1) ?_) ?_
  · rw [ht, rest_openNode]
    omega
  · simp only [statementBound, tokenWeight]
    omega

theorem within_statement (s : State) : Within (statementBound s.rest.length) (statement s) := by
  unfold statement
  split
  · exact within_definition (.inl (by assumption))
  · exact within_definition (.inr (by assumption))
  · exact within_importStatement s
  · exact within_functionStatement s
  · exact within_returnStatement s
  · exact within_recovery _ s

theorem within_statements (inBody : Bool) (s : State) :
    Within (tokenWeight * s.rest.length) (statements inBody s) := by
  unfold statements
  split
  · exact .ok (by simp [measureOf, weightOf])
  · rename_i hgo
    have hne : 0 < s.rest.length := by
      cases hrest : s.rest with
      | nil => simp [atEnd, ahead, hrest] at hgo
      | cons t ts => simp
    have hfirst : Within (statementBound s.rest.length)
        (if s.current = .braceClose then recovery "`\x7d` without an open function body" s else statement s) := by
      split
      · exact within_recovery _ s
      · exact within_statement s
    refine hfirst.map fun a ha => ?_
    have hself : weightOf [.statements inBody] = 1 := rfl
    simp only [measureOf, weightOf_append, hself, statementBound, tokenWeight] at ha ⊢
    omega

theorem within_parameters (s : State) : Within (tokenWeight * s.rest.length) (parameters s) := by
  have hself : weightOf [.parameters] = 1 := rfl
  unfold parameters
  refine within_bind (ensures_expect s _ _ _) fun t ht => ?_
  split
  · rename_i hcomma
    have hne : 0 < t.rest.length := by
      cases hrest : t.rest with
      | nil => simp [looksAt, current, ahead, hrest] at hcomma
      | cons u us => simp
    refine within_leaving (ensures_le (ensures_bump t) (m := t.rest.length - 1) (by omega)) ?_
    simp only [tokenWeight]
    omega
  · exact within_done (ensures_endParameters t) (Nat.mul_le_mul_left _ ht)

theorem within_functionBody (s : State) : Within (tokenWeight * s.rest.length) (functionBody s) := by
  have hbody : weightOf [.statements true, .endBody] = 2 := rfl
  unfold functionBody
  split
  · rename_i hbrace
    have hne : 0 < s.rest.length := by
      cases hrest : s.rest with
      | nil => simp [looksAt, current, ahead, hrest] at hbrace
      | cons u us => simp
    refine within_leaving (ensures_le (ensures_openDelimiter s _) (m := s.rest.length - 1) (by omega)) ?_
    simp only [tokenWeight]
    omega
  · refine within_done (ensures_thenClose ?_) (Nat.le_refl _)
    exact (ensures_report s _ _).mono fun _ h => Nat.le_of_eq (congrArg List.length h)

theorem within_skip (s : State) : Within (tokenWeight * s.rest.length) (skip s) := by
  have hself : weightOf [.skip] = 1 := rfl
  unfold skip
  split
  · exact .ok (by simp [measureOf, weightOf])
  · rename_i hgo
    have hne : 0 < s.rest.length := by
      cases hrest : s.rest with
      | nil => simp [atEnd, ahead, hrest] at hgo
      | cons t ts => simp
    refine within_leaving (ensures_le (ensures_bump s) (m := s.rest.length - 1) (by omega)) ?_
    simp only [tokenWeight]
    omega

theorem ensures_endSkipped (s : State) : Ensures (endSkipped s) fun t => t.rest.length ≤ s.rest.length := by
  unfold endSkipped
  refine (ensures_closeNode s).bind fun t ht => ensures_thenClose ((ensures_skipOne t _).mono fun u hu => ?_)
  rw [ht] at hu
  exact hu

/-- Every step lowers the measure by more than the weight of the goal it worked on is worth. -/
theorem within_act (g : Goal) (s : State) :
    Within (tokenWeight * s.rest.length + (g.weight - 1)) (act g s) := by
  cases g with
  | statements inBody => exact within_statements inBody s
  | parameters => exact within_parameters s
  | functionBody => exact within_functionBody s
  | endBody => exact within_done (ensures_thenClose (ensures_closeDelimiter s _ _)) (Nat.le_refl _)
  | skip => exact within_skip s
  | endRecovery => exact within_done (ensures_thenClose (ensures_skipOne s _)) (Nat.le_refl _)
  | endSkipped => exact within_done (ensures_endSkipped s) (Nat.le_refl _)
  | endStatement form => exact within_endStatement form s
  | expression => exact (within_expression s).mono fun a ha => Nat.le_trans ha (by simp [Goal.weight])
  | leaveExpression => exact .ok (by simp [measureOf, weightOf, rest_ascend])
  | suffixOf strength => exact within_suffixStep s strength
  | endOutput => exact within_closeNode s
  | arguments => exact within_moreArguments s
  | endGroup => exact within_done (ensures_endGroup s) (Nat.le_refl _)

theorem measureOf_act_lt {g : Goal} {goals new : List Goal} {s t : State} (h : act g s = .ok (new, t)) :
    measureOf (new ++ goals) t < measureOf (g :: goals) s := by
  have hstep := within_act g s _ h
  have hpos : 0 < g.weight := by cases g <;> simp [Goal.weight]
  have hcons : weightOf (g :: goals) = g.weight + weightOf goals := rfl
  simp only [measureOf, weightOf_append, hcons] at hstep ⊢
  omega

end Transducer.Parse
