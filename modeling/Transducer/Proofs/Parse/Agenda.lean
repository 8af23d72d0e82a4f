import Transducer.Parse.Run
import Transducer.Proofs.Parse.Balance

/-!
# The agenda fits the state

Every goal has frames that it will close and delimiters whose partner it will look for. The goals of an agenda,
taken together, account for all frames and delimiters of the state, so that a goal always finds its own on top.
This is what every step preserves; with it no step can fault, and a parse ends with the root alone.

The parser stands inside a string only while it skips tokens. A limit may stop the skipping there, but the goals
that are then still on the agenda read no expression any more.
-/

namespace Transducer.Parse

open State

/-- The number of frames that a goal closes, those apart that it opens itself. -/
def Goal.closes : Goal → Nat
  | .endSkipped | .arguments => 2
  | .parameters | .functionBody | .endBody | .endRecovery | .endStatement _ | .suffixOf _ | .endOutput
  | .endGroup => 1
  | .statements _ | .skip | .expression | .leaveExpression => 0

/-- The delimiters whose partner a goal looks for. -/
def Goal.pending : Goal → List Kind
  | .parameters | .arguments => [.bracketOpen]
  | .endBody => [.braceOpen]
  | .endGroup => [.parenOpen]
  | _ => []

def closesOf : List Goal → Nat
  | [] => 0
  | g :: goals => g.closes + closesOf goals

def pendingOf (goals : List Goal) : List Kind := goals.flatMap Goal.pending

@[simp]
theorem closesOf_nil : closesOf [] = 0 := rfl

@[simp]
theorem closesOf_cons (g : Goal) (goals : List Goal) : closesOf (g :: goals) = g.closes + closesOf goals := rfl

@[simp]
theorem closesOf_append (gs hs : List Goal) : closesOf (gs ++ hs) = closesOf gs + closesOf hs := by
  induction gs with
  | nil => rw [List.nil_append, closesOf_nil, Nat.zero_add]
  | cons g gs ih => rw [List.cons_append, closesOf_cons, closesOf_cons, ih, Nat.add_assoc]

@[simp]
theorem pendingOf_nil : pendingOf [] = [] := rfl

@[simp]
theorem pendingOf_cons (g : Goal) (goals : List Goal) : pendingOf (g :: goals) = g.pending ++ pendingOf goals := rfl

@[simp]
theorem pendingOf_append (gs hs : List Goal) : pendingOf (gs ++ hs) = pendingOf gs ++ pendingOf hs :=
  List.flatMap_append

theorem closesOf_suffixes (strengths : List Strength) : closesOf (strengths.map .suffixOf) = strengths.length := by
  induction strengths with
  | nil => rfl
  | cons strength strengths ih => rw [List.map_cons, closesOf_cons, ih, List.length_cons, Nat.add_comm]; rfl

theorem pendingOf_suffixes (strengths : List Strength) : pendingOf (strengths.map .suffixOf) = [] := by
  induction strengths with
  | nil => rfl
  | cons strength strengths ih => rw [List.map_cons, pendingOf_cons, ih]; rfl

/-- Goals inside a statement, which come before the goal that ends it. -/
def Goal.isInner : Goal → Bool
  | .expression | .leaveExpression | .suffixOf _ | .endOutput | .arguments | .endGroup | .parameters => true
  | _ => false

/-- Goals that work wherever the parser stands, also inside a string. -/
def Goal.isTolerant : Goal → Bool
  | .statements _ | .skip | .endRecovery | .endSkipped | .endBody => true
  | _ => false

def Inner (goals : List Goal) : Prop := ∀ g ∈ goals, g.isInner = true

/-- Behind a goal that ends a statement there are tolerant ones only. -/
def Ordered (goals : List Goal) : Prop := goals.Pairwise fun g h => g.isInner = true ∨ h.isTolerant = true

theorem Inner.append {gs hs : List Goal} (hgs : Inner gs) (hhs : Inner hs) : Inner (gs ++ hs) := by
  intro g hg
  obtain hg | hg := List.mem_append.mp hg
  · exact hgs g hg
  · exact hhs g hg

theorem inner_nil : Inner [] := fun _ hg => nomatch hg

theorem inner_cons {g : Goal} {goals : List Goal} (hg : g.isInner = true) (hgoals : Inner goals) :
    Inner (g :: goals) :=
  List.forall_mem_cons.mpr ⟨hg, hgoals⟩

theorem inner_suffixes (strengths : List Strength) : Inner (strengths.map .suffixOf) := by
  intro g hg
  obtain ⟨strength, -, rfl⟩ := List.mem_map.mp hg
  rfl

theorem Inner.ordered {goals : List Goal} (h : Inner goals) : Ordered goals :=
  List.Pairwise.imp_of_mem (fun hg _ _ => .inl (h _ hg))
    (List.pairwise_of_forall (R := fun _ _ => True) fun _ _ => trivial)

/-- The step returns, and the goals it leaves over account for what it adds to `n` frames and the delimiters `ks`;
as a list they have the given shape. -/
def Balanced (origin : State) (p : Prop) (n : Nat) (ks : List Kind) (shape : List Goal → Prop) (r : Step) : Prop :=
  Returns r fun a => Fits origin p (n + closesOf a.1) (pendingOf a.1 ++ ks) a.2 ∧ shape a.1

section Rules

variable {origin s : State} {p : Prop} {n : Nat} {ks : List Kind} {shape : List Goal → Prop}

theorem balanced_leaving {r : Except Fault State} {goals : List Goal} (hshape : shape goals)
    (h : Returns r (Fits origin p (n + closesOf goals) (pendingOf goals ++ ks))) :
    Balanced origin p n ks shape (leaving goals r) :=
  h.map fun _ ht => ⟨ht, hshape⟩

theorem balanced_done {r : Except Fault State} (hshape : shape []) (h : Returns r (Fits origin p n ks)) :
    Balanced origin p n ks shape (done r) :=
  h.map fun _ ht => ⟨ht.cast (by simp) (by simp), hshape⟩

theorem balanced_bind {α : Type} {r : Except Fault α} {q : α → Prop} {f : α → Step} (h : Returns r q)
    (hf : ∀ a, q a → Balanced origin p n ks shape (f a)) : Balanced origin p n ks shape (r >>= f) := h.bind hf

theorem Fits.thenClose {r : Except Fault State} (h : Returns r (Fits origin p (n + 1) ks)) :
    Returns (do (← r).closeNode) (Fits origin p n ks) := h.bind fun _ ht => ht.closeNode

end Rules

/-! ### Atoms -/

section Expressions

variable {origin s : State} {n : Nat} {ks : List Kind}

theorem current_of_isFollowedBy {t : State} {k : Kind} (h : s.isFollowedBy k = true) (ht : t.rest = s.ahead.tail) :
    t.current = k := by
  unfold isFollowedBy at h
  rw [List.drop_one, ← ht] at h
  split at h
  · cases h
  · rename_i next rest hnext
    rw [current_of_ahead hnext]
    exact beq_iff_eq.mp h

theorem ahead_of_isStringPart {t : Token} {ts : List Token} (ht : t.kind.isStringPart = true) (h : s.rest = t :: ts) :
    s.ahead = t :: ts := by
  have htrivia : ¬ t.isTrivia = true := by
    intro htrivia
    rw [Token.not_isStringPart_of_isTrivia htrivia] at ht
    cases ht
  rw [State.ahead, h, List.dropWhile_cons_of_neg htrivia]

theorem isStringPart_of_isQuote {k : Kind} (h : k.isQuote = true) : k.isStringPart = true := by
  rw [Kind.isStringPart, h, Bool.true_or]

/-- The closing quote of a string and the end of its node. Behind it quotes are in order again. -/
theorem Fits.closingQuote {r : Token} {ts : List Token} (hs : Fits origin False (n + 1) ks s)
    (hrest : s.rest = r :: ts) (hr : r.kind.isQuote = true) (hts : Paired ts) :
    Returns (do s.requireCurrent r.kind; let t ← s.bump; t.closeNode) (Fits origin True n ks) := by
  have hahead : s.ahead = r :: ts := ahead_of_isStringPart (isStringPart_of_isQuote hr) hrest
  have hend : s.atEnd = false := by
    rw [atEnd, hahead]
    rfl
  refine (requireCurrent_returns (current_of_ahead hahead)).bind fun _ _ => ?_
  refine (hs.bump_rest hend False.elim).bind fun t ht => ?_
  have hpaired : Paired t.rest := by
    rw [ht.2, hahead]
    exact hts
  exact Fits.closeNode (ht.1.pair hpaired)

/-- A string is consumed as a whole. Inside it the next quote ahead closes the string. -/
theorem Fits.string (hs : Fits origin True n ks s) (hquote : s.current.isQuote = true) :
    Returns (Parse.string s) (Fits origin True n ks) := by
  have hopen : Fits origin False (n + 1) ks (s.openNode .str) := (hs.openNode .str).weaken False.elim
  have hahead : (s.openNode .str).ahead = s.ahead := dropTrivia_dropTrivia s.rest
  have hpaired : Paired s.ahead := (hs.paired trivial).dropTrivia
  have hend : (s.openNode .str).atEnd = false := by
    refine atEnd_eq_false_of_current (current_openNode s .str) fun herror => ?_
    rw [herror] at hquote
    cases hquote
  obtain ⟨q, rest, hq⟩ := exists_ahead_of_not_atEnd hend
  rw [hahead] at hq
  have hcurrent : s.current = q.kind := current_of_ahead hq
  rw [hq] at hpaired
  unfold Parse.string
  refine (hopen.bump_rest hend False.elim).bind fun t ht => ?_
  rw [hahead, hq, List.tail_cons] at ht
  cases hpaired with
  | plain hplain _ =>
      rw [← hcurrent, isStringPart_of_isQuote hquote] at hplain
      cases hplain
  | @empty _ r ts hopens hr hts =>
      have hnext : t.current = r.kind :=
        current_of_ahead (ahead_of_isStringPart (isStringPart_of_isQuote (hr ▸ hopens)) ht.2)
      have hlooks : ¬ t.looksAt .strVal = true := by
        intro hlooks
        rw [← hr, ← hnext, looksAt_iff.mp hlooks] at hopens
        cases hopens
      rw [State.skipOne, if_neg hlooks, hcurrent, ← hr]
      exact ht.1.closingQuote ht.2 (hr ▸ hopens) hts
  | @full _ v r ts hopens hv hr hts =>
      have hv' : t.ahead = v :: r :: ts := ahead_of_isStringPart (by rw [hv]; rfl) ht.2
      have hlooks : t.looksAt .strVal = true := looksAt_iff.mpr ((current_of_ahead hv').trans hv)
      rw [State.skipOne, if_pos hlooks, hcurrent, ← hr]
      refine (ht.1.bump_rest (atEnd_eq_false_of_current (current_of_ahead hv') (by rw [hv]; decide))
        False.elim).bind fun u hu => ?_
      rw [hv', List.tail_cons] at hu
      exact hu.1.closingQuote hu.2 (hr ▸ hopens) hts

theorem Fits.nestedExpression (opener : String) (next : Goal) (hnext : next.isInner = true)
    (hs : Fits origin True (n + next.closes) (next.pending ++ ks) s) :
    Balanced origin True n ks Inner (Parse.nestedExpression s opener next) := by
  have hinner : Inner [next] := inner_cons hnext inner_nil
  unfold Parse.nestedExpression
  split
  · exact .ok ⟨hs.cast (by simp [Goal.closes]) (by simp [Goal.pending]), inner_cons rfl hinner⟩
  · exact balanced_leaving hinner ((hs.report _ _).mono fun t ht => ht.cast (by simp) (by simp))

theorem Fits.group (hs : Fits origin True n ks s) (hk : s.current = .parenOpen) :
    Balanced origin True n ks Inner (Parse.group s) := by
  have hopen := (hs.openNode .nested).openDelimiter ((current_openNode s .nested).trans hk) (by decide)
  exact balanced_bind hopen fun t ht => Fits.nestedExpression "(" .endGroup rfl ht

theorem Fits.endArguments (hs : Fits origin True (n + 2) (.bracketOpen :: ks) s) :
    Returns (Parse.endArguments s) (Fits origin True n ks) :=
  (hs.closeDelimiter rfl _).bind fun _ ht => ht.closeNode.bind fun _ hu => hu.closeNode

theorem Fits.call (hs : Fits origin True n ks s) (hk : s.current = .id) (hnext : s.isFollowedBy .bracketOpen = true) :
    Balanced origin True n ks Inner (Parse.call s) := by
  have hid : (s.openNode .call).current = .id := (current_openNode s .call).trans hk
  have hahead : (s.openNode .call).ahead = s.ahead := dropTrivia_dropTrivia s.rest
  refine balanced_bind ((hs.openNode .call).bump_rest (atEnd_eq_false_of_current hid (by decide)) fun _ => by
    rw [hid]; rfl) fun t ht => ?_
  rw [hahead] at ht
  have hbracket : t.current = .bracketOpen := current_of_isFollowedBy hnext ht.2
  refine balanced_bind ((ht.1.openTight (some .args)).openDelimiter hbracket (by decide)) fun u hu => ?_
  split
  · exact balanced_done inner_nil hu.endArguments
  · exact Fits.nestedExpression "[" .arguments rfl hu

theorem Fits.reference (hs : Fits origin True n ks s) (hk : s.current = .id) :
    Returns (Parse.reference s) (Fits origin True n ks) :=
  ((hs.openNode .ref).bump_of_current ((current_openNode s .ref).trans hk) (by decide)).bind fun _ ht => ht.closeNode

/-- A stray token is no part of a string, since a string would have been read. -/
theorem Fits.stray (hs : Fits origin True n ks s) (hpart : s.current.isStringPart = false) :
    Returns (Parse.stray s) (Fits origin True n ks) := by
  unfold Parse.stray
  refine (hs.report_rest _ _).bind fun t ht => ?_
  split
  · exact .ok ht.1
  · rename_i hend
    refine ((ht.1.openNode .error).bump ?_ fun _ => ?_).bind fun _ hu => hu.closeNode
    · rw [atEnd_openNode]
      exact Bool.eq_false_iff.mpr hend
    · rw [current_openNode, current_of_rest ht.2]
      exact hpart

/-- Where quotes are in order, no content of a string is next. -/
theorem Fits.not_isStringPart (hs : Fits origin True n ks s) (hquote : s.current.isQuote = false) :
    s.current.isStringPart = false := by
  have hpaired : Paired s.ahead := (hs.paired trivial).dropTrivia
  cases hahead : s.ahead with
  | nil =>
      rw [State.current, hahead]
      rfl
  | cons t ts =>
      rw [current_of_ahead hahead] at hquote ⊢
      rw [hahead] at hpaired
      cases hpaired with
      | plain ht _ => exact ht
      | empty hq =>
          rw [hq] at hquote
          cases hquote
      | full hq =>
          rw [hq] at hquote
          cases hquote

theorem Fits.atom (hs : Fits origin True n ks s) : Balanced origin True n ks Inner (Parse.atom s) := by
  unfold Parse.atom
  split
  · rename_i hk
    split
    · rename_i hnext
      exact hs.call hk hnext
    · exact balanced_done inner_nil (hs.reference hk)
  · rename_i hk
    exact balanced_done inner_nil (hs.string (by rw [hk]; rfl))
  · rename_i hk
    exact balanced_done inner_nil (hs.string (by rw [hk]; rfl))
  · rename_i hk
    exact balanced_done inner_nil (hs.unterminatedString hk)
  · rename_i hk
    exact hs.group hk
  · rename_i hdouble hsingle _ _
    refine balanced_done inner_nil (hs.stray (hs.not_isStringPart ?_))
    rw [Kind.isQuote, beq_false_of_ne hdouble, beq_false_of_ne hsingle]
    rfl

/-! ### Operators -/

theorem Fits.operand (strength : Strength) (following : List Goal) (hinner : Inner following)
    (hs : Fits origin True (n + closesOf following) (pendingOf following ++ ks) s) :
    Balanced origin True n ks Inner (Parse.operand strength following s) := by
  unfold Parse.operand
  refine balanced_bind (hs.marks strength.upTo).atom fun a ha => ?_
  refine .ok ⟨ha.1.cast ?_ ?_, (ha.2.append (inner_suffixes _)).append hinner⟩
  · rw [closesOf_append, closesOf_append, closesOf_suffixes]
    omega
  · rw [pendingOf_append, pendingOf_append, pendingOf_suffixes, List.append_nil, List.append_assoc]

theorem Fits.operandAfter (operator : String) (strength : Strength) (following : List Goal) (hinner : Inner following)
    (hs : Fits origin True (n + closesOf following) (pendingOf following ++ ks) s) :
    Balanced origin True n ks Inner (Parse.operandAfter operator strength following s) := by
  unfold Parse.operandAfter
  split
  · exact hs.operand strength following hinner
  · exact balanced_leaving hinner (hs.report _ _)

theorem Fits.expression (hs : Fits origin True n ks s) : Balanced origin True n ks Inner (Parse.expression s) := by
  unfold Parse.expression
  split
  · exact hs.descend.operand .compose [.leaveExpression] (inner_cons rfl inner_nil)
  · exact balanced_done inner_nil (hs.descend.openNode .error).closeNode

theorem Fits.bound (hs : Fits origin True n ks s) : Returns (Parse.bound s) (Fits origin True n ks) := by
  unfold Parse.bound
  split
  · rename_i hlooks
    have hcheck : Returns (checkBound s) fun t => Fits origin True n ks t ∧ t.rest = s.rest := by
      unfold checkBound
      split
      · exact hs.report_rest _ _
      · exact .ok ⟨hs, rfl⟩
    refine hcheck.bind fun t ht => ht.1.bump_of_current (k := .number) ?_ (by decide)
    exact (current_of_rest ht.2).trans (looksAt_iff.mp hlooks)
  · exact hs.report _ _

theorem Fits.upperBound (hs : Fits origin True n ks s) : Returns (Parse.upperBound s) (Fits origin True n ks) := by
  unfold Parse.upperBound
  split
  · rename_i hlooks
    exact (hs.bump_of_current (looksAt_iff.mp hlooks) (by decide)).bind fun _ ht => ht.bound
  · exact .ok hs

theorem Fits.bounds (hs : Fits origin True (n + 1) ks s) (hk : s.current = .braceOpen) :
    Returns (Parse.bounds s) (Fits origin True (n + 1) ks) :=
  ((hs.wrap .repetition).openDelimiter hk (by decide)).bind fun _ ht =>
    ht.bound.bind fun _ hu => hu.upperBound.bind fun _ hv => hv.closeDelimiter rfl _

theorem Fits.weightValue (hs : Fits origin True (n + 1) ks s) (hk : s.current = .angleOpen) :
    Returns (Parse.weightValue s) (Fits origin True (n + 1) ks) :=
  ((hs.wrap .weight).bump_of_current hk (by decide)).bind fun _ ht =>
    (ht.expect (by decide) _ _).bind fun _ hu => hu.expect (by decide) _ _

theorem Fits.chainLink (hs : Fits origin True (n + 1) ks s) (node : Kind) (operator : String)
    (strength tighter : Strength) {k : Kind} (hk : s.current = k) (hplain : k ≠ .error ∧ k.isStringPart = false) :
    Balanced origin True n ks Inner (Parse.chainLink node operator strength tighter s) :=
  balanced_bind ((hs.wrap node).bump_of_current hk hplain) fun _ ht =>
    Fits.operandAfter operator tighter [.suffixOf strength] (inner_cons rfl inner_nil) ht

theorem not_isStringPart_of_closures {k : Kind} (h : KindSet.closures.contains k = true) :
    k ≠ .error ∧ k.isStringPart = false := by
  revert h
  cases k <;> decide

theorem Fits.suffixStep (strength : Strength) (hs : Fits origin True (n + 1) ks s) :
    Balanced origin True n ks Inner (Parse.suffixStep strength s) := by
  have hclose : Balanced origin True n ks Inner (done s.closeNode) := balanced_done inner_nil hs.closeNode
  cases strength with
  | closure =>
      simp only [Parse.suffixStep]
      split
      · rename_i hlooks
        exact balanced_done inner_nil
          (Fits.thenClose ((hs.wrap .closure).bump_of_current rfl (not_isStringPart_of_closures hlooks)))
      · exact hclose
  | repetition =>
      simp only [Parse.suffixStep]
      split
      · rename_i hlooks
        exact balanced_done inner_nil (Fits.thenClose (hs.bounds (looksAt_iff.mp hlooks)))
      · exact hclose
  | weight =>
      simp only [Parse.suffixStep]
      split
      · rename_i hlooks
        exact balanced_done inner_nil (Fits.thenClose (hs.weightValue (looksAt_iff.mp hlooks)))
      · exact hclose
  | output =>
      simp only [Parse.suffixStep]
      split
      · rename_i hlooks
        exact balanced_bind ((hs.wrap .output).bump_of_current (looksAt_iff.mp hlooks) (by decide)) fun _ ht =>
          Fits.operandAfter ":" .weight [.endOutput] (inner_cons rfl inner_nil) ht
      · exact hclose
  | concat =>
      simp only [Parse.suffixStep]
      split
      · exact (hs.wrap .concat).operand .output [.suffixOf .concat] (inner_cons rfl inner_nil)
      · exact hclose
  | diff =>
      simp only [Parse.suffixStep]
      split
      · rename_i hlooks
        exact hs.chainLink .diff "-" .diff .concat (looksAt_iff.mp hlooks) (by decide)
      · exact hclose
  | union =>
      simp only [Parse.suffixStep]
      split
      · rename_i hlooks
        exact hs.chainLink .union "|" .union .diff (looksAt_iff.mp hlooks) (by decide)
      · exact hclose
  | compose =>
      simp only [Parse.suffixStep]
      split
      · rename_i hlooks
        exact hs.chainLink .compose "@" .compose .union (looksAt_iff.mp hlooks) (by decide)
      · exact hclose

theorem Fits.moreArguments (hs : Fits origin True (n + 2) (.bracketOpen :: ks) s) :
    Balanced origin True n ks Inner (Parse.moreArguments s) := by
  unfold Parse.moreArguments
  split
  · rename_i hlooks
    exact balanced_bind (hs.bump_of_current (looksAt_iff.mp hlooks) (by decide)) fun _ ht =>
      Fits.nestedExpression "," .arguments rfl ht
  · exact balanced_done inner_nil hs.endArguments

theorem Fits.endGroup (hs : Fits origin True (n + 1) (.parenOpen :: ks) s) :
    Returns (Parse.endGroup s) (Fits origin True n ks) :=
  (hs.closeDelimiter rfl _).bind fun _ ht => ht.closeNode

end Expressions

/-! ### Statements -/

section Statements

variable {origin s : State} {p : Prop} {n : Nat} {ks : List Kind}

theorem ordered_nil : Ordered [] := List.Pairwise.nil

theorem ordered_singleton (g : Goal) : Ordered [g] := List.pairwise_singleton _ g

theorem ordered_pair {g h : Goal} (hgh : g.isInner = true ∨ h.isTolerant = true) : Ordered [g, h] := by
  refine List.pairwise_cons.mpr ⟨fun h' hh => ?_, ordered_singleton h⟩
  rw [List.mem_singleton.mp hh]
  exact hgh

theorem Fits.statementBody (form : Form) (hs : Fits origin True (n + 1) ks s) :
    Balanced origin True n ks Ordered (Parse.statementBody form s) := by
  unfold Parse.statementBody
  split
  · exact .ok ⟨hs, ordered_pair (.inl rfl)⟩
  · split
    · exact balanced_leaving (ordered_singleton _) (hs.report _ _)
    · exact balanced_leaving (ordered_pair (.inr rfl)) ((hs.openNode .error).report _ _)

theorem Fits.endStatement (form : Form) (hs : Fits origin True (n + 1) ks s) :
    Balanced origin True n ks Ordered (Parse.endStatement form s) := by
  unfold Parse.endStatement
  split
  · exact balanced_done ordered_nil (Fits.thenClose (hs.expectSemicolon _))
  · exact balanced_leaving (ordered_pair (.inr rfl)) ((hs.openNode .error).report _ _)

theorem Fits.definition (hs : Fits origin True n ks s) :
    Balanced origin True n ks Ordered (Parse.definition s) :=
  balanced_bind ((hs.openNode .varDef).skipOne (by decide)) fun _ ht =>
    balanced_bind (ht.expect (by decide) _ _) fun _ hu =>
      balanced_bind (hu.expect (by decide) _ _) fun _ hv => hv.statementBody .definition

theorem Fits.returnStatement (hs : Fits origin True n ks s) (hk : s.current = .kwReturn) :
    Balanced origin True n ks Ordered (Parse.returnStatement s) := by
  have hcurrent : (s.openNode .returnStmt).current = .kwReturn := (current_openNode s .returnStmt).trans hk
  refine balanced_bind (requireCurrent_returns hcurrent) fun _ _ => ?_
  exact balanced_bind ((hs.openNode .returnStmt).bump_of_current hcurrent (by decide)) fun _ ht =>
    ht.statementBody .returned

theorem Fits.importPath (hs : Fits origin True n ks s) : Returns (Parse.importPath s) (Fits origin True n ks) := by
  unfold Parse.importPath
  split
  · rename_i hk
    exact hs.string (by rw [hk]; rfl)
  · rename_i hk
    exact hs.string (by rw [hk]; rfl)
  · rename_i hk
    exact hs.unterminatedString hk
  · exact hs.report _ _

theorem Fits.importStatement (hs : Fits origin True n ks s) (hk : s.current = .kwImport) :
    Returns (Parse.importStatement s) (Fits origin True n ks) := by
  have hcurrent : (s.openNode .importStmt).current = .kwImport := (current_openNode s .importStmt).trans hk
  refine (requireCurrent_returns hcurrent).bind fun _ _ => ?_
  refine ((hs.openNode .importStmt).bump_of_current hcurrent (by decide)).bind fun _ ht => ?_
  refine ht.importPath.bind fun _ hu => ?_
  refine (hu.expect (by decide) _ _).bind fun _ hv => ?_
  refine (hv.expect (by decide) _ _).bind fun _ hw => ?_
  exact Fits.thenClose (hw.expectSemicolon _)

theorem Fits.endParameters (hs : Fits origin True (n + 1) (.bracketOpen :: ks) s) :
    Returns (Parse.endParameters s) (Fits origin True n ks) :=
  (hs.closeDelimiter rfl _).bind fun _ ht => ht.closeNode

theorem Fits.openParameters (hs : Fits origin True n ks s) :
    Returns (Parse.openParameters s) (Fits origin True (n + 1) ks) := by
  unfold Parse.openParameters
  split
  · rename_i hlooks
    exact (hs.bump_of_current (looksAt_iff.mp hlooks) (by decide)).map fun _ ht => ht.openTight _
  · exact (hs.report _ _).map fun _ ht => ht.openNode _

theorem Fits.functionStatement (hs : Fits origin True n ks s) (hk : s.current = .kwFunc) :
    Balanced origin True n ks Ordered (Parse.functionStatement s) := by
  have hcurrent : (s.openNode .funcDef).current = .kwFunc := (current_openNode s .funcDef).trans hk
  refine balanced_bind (requireCurrent_returns hcurrent) fun _ _ => ?_
  refine balanced_bind ((hs.openNode .funcDef).bump_of_current hcurrent (by decide)) fun _ ht => ?_
  refine balanced_bind ht.openParameters fun u hu => ?_
  split
  · rename_i hlooks
    refine balanced_bind (hu.openDelimiter (looksAt_iff.mp hlooks) (by decide)) fun v hv => ?_
    split
    · exact balanced_leaving (ordered_singleton _) hv.endParameters
    · exact .ok ⟨hv, ordered_pair (.inl rfl)⟩
  · exact balanced_bind (hu.report _ _) fun _ hv => balanced_leaving (ordered_singleton _) hv.closeNode

theorem Fits.parameters (hs : Fits origin True (n + 1) (.bracketOpen :: ks) s) :
    Balanced origin True n ks Inner (Parse.parameters s) := by
  unfold Parse.parameters
  refine balanced_bind (hs.expect (by decide) _ _) fun t ht => ?_
  split
  · rename_i hlooks
    exact balanced_leaving (inner_cons rfl inner_nil) (ht.bump_of_current (looksAt_iff.mp hlooks) (by decide))
  · exact balanced_done inner_nil ht.endParameters

theorem Fits.functionBody (hs : Fits origin True (n + 1) ks s) :
    Balanced origin True n ks Ordered (Parse.functionBody s) := by
  unfold Parse.functionBody
  split
  · rename_i hlooks
    exact balanced_leaving (ordered_pair (.inr rfl)) (hs.openDelimiter (looksAt_iff.mp hlooks) (by decide))
  · exact balanced_done ordered_nil (Fits.thenClose (hs.report _ _))

theorem Fits.endBody (hs : Fits origin p (n + 1) (.braceOpen :: ks) s) :
    Returns (Parse.endBody s) (Fits origin p n ks) :=
  (hs.closeDelimiter rfl _).bind fun _ ht => ht.closeNode

theorem Fits.endRecovery (hs : Fits origin p (n + 1) ks s) : Returns (Parse.endRecovery s) (Fits origin p n ks) :=
  Fits.thenClose (hs.skipOne (by decide))

theorem Fits.endSkipped (hs : Fits origin p (n + 2) ks s) : Returns (Parse.endSkipped s) (Fits origin p n ks) :=
  hs.closeNode.bind fun _ ht => Fits.thenClose (ht.skipOne (by decide))

end Statements

end Transducer.Parse
