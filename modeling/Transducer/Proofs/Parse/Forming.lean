import Transducer.Proofs.Parse.Shape
import Transducer.Proofs.Parse.Totality

/-!
# Clean parses give formed trees

What the goals on the agenda ask of the open frames is a predicate on their sketches: a goal that closes a frame asks
that the frame has what its kind needs, and an expression that is still to be read may be any formed tree. Every step
keeps this up unless it reports something or hits a limit, so in the end every definition in the root is formed.
-/

namespace Transducer.Parse

open Transducer.Tree State

/-- The node that operands in a row share. -/
def Strength.chain? : Strength → Option Kind
  | .concat => some .concat
  | .diff => some .diff
  | .union => some .union
  | .compose => some .compose
  | .closure | .repetition | .weight | .output => none

namespace Sketch

/-- The frame holds formed operands only. -/
def Holds (k : Kind) (f : Sketch) : Prop := f.kind = some k ∧ ∀ x ∈ f.nodes, Formed x

/-- The frame has all that its kind asks for. -/
def Whole (k : Kind) (f : Sketch) : Prop := f.Holds k ∧ Shape k f.nodes.length f.tokens

/-- One operand, or a chain of operands that may go on. -/
def Ready (strength : Strength) (f : Sketch) : Prop := f.Single ∨ ∃ k, strength.chain? = some k ∧ f.Whole k

/-- The name of a definition has been read. -/
def Named (f : Sketch) : Prop := f.Holds .varDef ∧ ∃ t ∈ f.tokens, t.kind = .id

/-- A statement but for its end. -/
def Ending (f : Sketch) : Prop := (f.Named ∧ f.nodes ≠ []) ∨ ∃ k, f.kind = some k ∧ k ≠ .varDef ∧ k ≠ .funcDef

/-- The keyword of a function has been read. -/
def Headed (f : Sketch) : Prop := f.kind = some .funcDef ∧ f.tokens ≠ []

variable {f : Sketch} {k : Kind}

theorem Holds.addNode (h : f.Holds k) {x : Tree} (hx : Formed x) : (f.addNode x).Holds k :=
  ⟨h.1, List.forall_mem_cons.mpr ⟨hx, h.2⟩⟩

theorem holds_opened (k : Kind) : (opened (some k)).Holds k := ⟨rfl, fun _ h => nomatch h⟩

theorem yields_of {T : Tree → Prop} (hkind : f.kind = some k)
    (h : ∀ children, nodesOf children = f.nodes.reverse → tokensOf children = f.tokens.reverse → T (.node k children)) :
    f.Yields T := by
  refine ⟨by rw [hkind]; exact Option.some_ne_none k, ?_⟩
  rintro x ⟨k', children, hkind', rfl, hnodes, htokens⟩
  rw [hkind] at hkind'
  cases hkind'
  exact h children hnodes htokens

theorem Whole.yields (h : f.Whole k) : f.Yields Formed := by
  obtain ⟨⟨hkind, hformed⟩, hshape⟩ := h
  refine yields_of hkind fun children hnodes htokens => .node ?_ fun y hy => hformed y ?_
  · rw [hnodes, htokens, List.length_reverse, shape_reverse]
    exact hshape
  · rw [hnodes] at hy
    exact List.mem_reverse.mp hy

theorem Ending.yields (h : f.Ending) : f.Yields StmtFormed := by
  obtain ⟨⟨⟨hkind, hformed⟩, hname⟩, hne⟩ | ⟨k, hkind, hk⟩ := h
  · refine yields_of hkind fun children hnodes htokens => .definition ?_ ?_ fun y hy => hformed y ?_
    · simpa [htokens] using hname
    · simpa [hnodes] using hne
    · rw [hnodes] at hy
      exact List.mem_reverse.mp hy
  · exact yields_of hkind fun children _ _ => .other hk

theorem Headed.addToken (h : f.Headed) (t : Token) : (f.addToken t).Headed := ⟨h.1, List.cons_ne_nil t f.tokens⟩

theorem Headed.yields (h : f.Headed) : f.Yields StmtFormed := by
  refine yields_of h.1 fun children _ htokens => .function ?_
  rw [htokens]
  exact mt List.reverse_eq_nil_iff.mp h.2

end Sketch

open Sketch

/-- Statements go into the innermost frame one by one. -/
def deliverAll (xs : List Tree) (fs : List Sketch) : List Sketch := xs.foldl (fun fs x => deliver x fs) fs

/-- What the goals ask of the open frames. Nothing is skipped in a clean parse. -/
def Awaits : List Goal → List Sketch → Prop
  | [] => Inside (fun f => ∀ x ∈ f.nodes, StmtFormed x) fun fs => fs = []
  | .statements _ :: goals => fun fs => ∀ xs, (∀ x ∈ xs, StmtFormed x) → Awaits goals (deliverAll xs fs)
  | .parameters :: goals => Inside (fun f => f.kind = some .params) (Receives (fun x => x.kind = .params) (Awaits goals))
  | .functionBody :: goals => Inside Headed (Receives StmtFormed (Awaits goals))
  | .endBody :: goals => Inside Headed (Receives StmtFormed (Awaits goals))
  | .skip :: _ => fun _ => False
  | .endRecovery :: _ => fun _ => False
  | .endSkipped :: _ => fun _ => False
  | .endStatement _ :: goals => Inside Ending (Receives StmtFormed (Awaits goals))
  | .expression :: goals => Receives Formed (Awaits goals)
  | .leaveExpression :: goals => Awaits goals
  | .suffixOf strength :: goals => Inside (Ready strength) (Receives Formed (Awaits goals))
  | .endOutput :: goals => Inside (Whole .output) (Receives Formed (Awaits goals))
  | .arguments :: goals =>
      Inside (fun f => f.kind = some .args) (Inside (fun f => f.kind = some .call) (Receives Formed (Awaits goals)))
  | .endGroup :: goals => Inside (Whole .nested) (Receives Formed (Awaits goals))

/-- The step leaves what the goals ask for. -/
def StepShows (goals : List Goal) (r : Step) : Prop := Ensures r fun a => a.2.Shows (Awaits (a.1 ++ goals))

section Steps

variable {s : State} {goals : List Goal} {Q R : List Sketch → Prop} {r : Except Fault State}

theorem stepShows_done (h : Ensures r fun t => t.Shows (Awaits goals)) : StepShows goals (done r) :=
  h.map fun _ ht => ht

theorem stepShows_leaving {new : List Goal} (h : Ensures r fun t => t.Shows (Awaits (new ++ goals))) :
    StepShows goals (leaving new r) :=
  h.map fun _ ht => ht

theorem Spoils.stepShows {new : List Goal} (h : Spoils r) : StepShows goals (leaving new r) :=
  stepShows_leaving h.shows

theorem shows_closeNode_of {P : Sketch → Prop} {T : Tree → Prop} (h : s.Shows (Inside P (Receives T Q)))
    (hP : ∀ f, P f → f.Yields T) : Ensures s.closeNode fun t => t.Shows Q :=
  shows_closeNode (h.mono fun _ hs => hs.mono hP fun _ hfs => hfs)

/-! ### Atoms -/

theorem shows_string (h : s.Shows (Receives Formed Q)) : Ensures (string s) fun t => t.Shows Q := by
  have hany (f : Sketch) (t : Token) (hf : f.Holds .str) : (f.addToken t).Holds .str := hf
  unfold string
  refine Ensures.bind (shows_bump (shows_openNode (holds_opened .str) h) fun f t _ _ => hany f t) fun t ht => ?_
  refine Ensures.bind (shows_skipOne ht fun f t _ => hany f t) fun u hu => Ensures.check ?_
  refine Ensures.bind (shows_bump hu fun f t _ _ => hany f t) fun v hv => ?_
  exact shows_closeNode_of hv fun f hf => Whole.yields ⟨hf, trivial⟩

theorem shows_reference (hk : s.current = .id) (h : s.Shows (Receives Formed Q)) :
    Ensures (reference s) fun t => t.Shows Q := by
  unfold reference
  have hcurrent : (s.openNode .ref).current = .id := (current_openNode s .ref).trans hk
  refine Ensures.bind (shows_bump_of_current hcurrent (shows_openNode (holds_opened .ref) h) (N := Whole .ref) ?_)
    fun t ht => shows_closeNode_of ht fun f hf => hf.yields
  exact fun f t ht hf => ⟨hf, t, List.mem_cons_self, ht⟩

theorem stepShows_nestedExpression {next : Goal} (h : s.Shows (Receives Formed (Awaits (next :: goals))))
    (opener : String) : StepShows goals (nestedExpression s opener next) := by
  unfold nestedExpression
  split
  · exact .ok h
  · exact (spoils_report s _ _).stepShows

theorem stepShows_group (h : s.Shows (Receives Formed (Awaits goals))) : StepShows goals (group s) := by
  unfold group
  refine Ensures.bind (shows_openDelimiter (shows_openNode (holds_opened .nested) h) (N := Holds .nested) ?_)
    fun t ht => stepShows_nestedExpression (ht.mono fun fs hfs => hfs.receives ?_) "("
  · exact fun f t _ hf => hf
  · exact fun f x hf hx => ⟨hf.addNode hx, Nat.le_add_left 1 _⟩

/-- The frames of a call whose arguments are being read. -/
abbrev InCall (Q : List Sketch → Prop) : List Sketch → Prop :=
  Inside (fun f => f.kind = some .args) (Inside (fun f => f.kind = some .call) (Receives Formed Q))

theorem shows_endArguments (h : s.Shows (InCall Q)) : Ensures (endArguments s) fun t => t.Shows Q := by
  unfold endArguments
  refine Ensures.bind (shows_closeDelimiter h (fun _ _ _ hf => hf) _) fun t ht => ?_
  have hargs : Ensures t.closeNode fun u => u.Shows (Inside (fun f => f.kind = some .call) (Receives Formed Q)) := by
    refine shows_closeNode (T := fun _ => True) (ht.mono fun fs hfs => hfs.mono ?_ ?_)
    · exact fun f hf => yields_of hf fun _ _ _ => trivial
    · exact fun fs hfs => hfs.receives fun f x hf _ => hf
  refine Ensures.bind hargs fun u hu => shows_closeNode_of hu fun f hf => yields_of hf fun children _ _ => .call children

theorem stepShows_argument (h : s.Shows (InCall (Awaits goals))) (opener : String) :
    StepShows goals (nestedExpression s opener .arguments) :=
  stepShows_nestedExpression (h.mono fun _ hfs => hfs.receives fun _ _ hf _ => hf) opener

theorem stepShows_call (h : s.Shows (Receives Formed (Awaits goals))) : StepShows goals (call s) := by
  unfold call
  refine Ensures.bind (shows_bump (shows_openNode (P := fun f => f.kind = some .call) rfl h)
    (N := fun f => f.kind = some .call) fun _ _ _ _ hf => hf) fun t ht => ?_
  refine Ensures.bind (shows_openDelimiter (shows_openTight (P := fun f => f.kind = some .args) rfl ht)
    (N := fun f => f.kind = some .args) fun _ _ _ hf => hf) fun u hu => ?_
  split
  · exact stepShows_done (shows_endArguments hu)
  · exact stepShows_argument hu "["

theorem stepShows_moreArguments (h : s.Shows (InCall (Awaits goals))) : StepShows goals (moreArguments s) := by
  unfold moreArguments
  split
  · refine Ensures.bind (shows_bump h fun _ _ _ _ hf => hf) fun t ht => stepShows_argument ht ","
  · exact stepShows_done (shows_endArguments h)

theorem stepShows_atom (h : s.Shows (Receives Formed (Awaits goals))) : StepShows goals (atom s) := by
  unfold atom
  split
  · rename_i hk
    split
    · exact stepShows_call h
    · exact stepShows_done (shows_reference hk h)
  · exact stepShows_done (shows_string h)
  · exact stepShows_done (shows_string h)
  · exact stepShows_done (spoils_unterminatedString s).shows
  · exact stepShows_group h
  · exact stepShows_done (spoils_stray s).shows

/-! ### Operands -/

theorem outline_marks (strengths : List Strength) (s : State) :
    (strengths.foldl (fun s _ => s.mark) s).outline = List.replicate strengths.length (.opened none) ++ s.outline := by
  induction strengths generalizing s with
  | nil => rfl
  | cons strength strengths ih =>
      rw [List.foldl_cons, ih, outline_mark, List.length_cons, List.replicate_succ', List.append_assoc]
      rfl

theorem flawless_marks {strengths : List Strength} (h : (strengths.foldl (fun s _ => s.mark) s).Flawless) :
    s.Flawless := by
  induction strengths generalizing s with
  | nil => exact h
  | cons strength strengths ih => exact ih (s := s.mark) h

/-- Whatever operand a marked place gets, the suffixes find it there. -/
theorem awaits_suffixes {rest : List Goal} {fs : List Sketch} (h : Receives Formed (Awaits rest) fs)
    (strengths : List Strength) :
    Receives Formed (Awaits (strengths.map .suffixOf ++ rest))
      (List.replicate strengths.length (.opened none) ++ fs) := by
  induction strengths with
  | nil => exact h
  | cons strength strengths ih =>
      intro x hx
      exact ⟨.inl ⟨rfl, rfl, x, hx, rfl⟩, ih⟩

theorem stepShows_operand (strength : Strength) (following : List Goal)
    (h : s.Shows (Receives Formed (Awaits (following ++ goals)))) : StepShows goals (operand strength following s) := by
  unfold operand
  have hmarked : (strength.upTo.foldl (fun s _ => s.mark) s).Shows
      (Receives Formed (Awaits (strength.upTo.map .suffixOf ++ (following ++ goals)))) := by
    intro hs
    rw [outline_marks]
    exact awaits_suffixes (h (flawless_marks hs)) strength.upTo
  refine Ensures.bind (stepShows_atom hmarked) fun a ha => .ok ?_
  simpa only [List.append_assoc] using ha

theorem stepShows_operandAfter (operator : String) (strength : Strength) (following : List Goal)
    (h : s.Shows (Receives Formed (Awaits (following ++ goals)))) :
    StepShows goals (operandAfter operator strength following s) := by
  unfold operandAfter
  split
  · exact stepShows_operand strength following h
  · exact (spoils_report s _ _).stepShows

theorem stepShows_expression (h : s.Shows (Receives Formed (Awaits goals))) : StepShows goals (expression s) := by
  unfold expression
  obtain ⟨depth, hdescend⟩ := s.descend_eq
  split
  · refine stepShows_operand .compose [.leaveExpression] ?_
    intro hs
    have hflawless := Move.descended.flawless hs
    rw [hdescend]
    exact h hflawless
  · rename_i hdepth
    refine stepShows_done fun t ht hflawless => ?_
    have hstopped : (s.descend.openNode .error).isStopped = true := isStopped_descend hdepth
    have hstopped' := (Move.closed ht).isStopped hstopped
    rw [hflawless.2] at hstopped'
    cases hstopped'

/-! ### Suffixes -/

theorem shows_bound {P N : Sketch → Prop} (h : s.Shows (Inside P R))
    (hP : ∀ f t n, t.kind = .number → readNumeral? t.text = some n → P f → N (f.addToken t)) :
    Ensures (bound s) fun t => t.Shows (Inside N R) := by
  unfold bound
  split
  · rename_i hlooks
    unfold checkBound
    split
    · refine Spoils.shows ((spoils_report s _ _).bind fun t => (ensures_bump_significant t).mono fun u hu => ?_)
      obtain ⟨-, -, -, -, hclean, -⟩ := hu
      exact hclean.mp
    · rename_i hread
      obtain ⟨n, hn⟩ := Option.ne_none_iff_exists'.mp (mt Option.isNone_iff_eq_none.mpr hread)
      refine shows_bump h fun f t hkind htext hf => hP f t n (hkind.trans (looksAt_iff.mp hlooks)) ?_ hf
      rw [htext, hn]
  · exact (spoils_report s _ _).shows

/-- The numbers and commas between the braces of a repetition so far. -/
def Sketch.Counts (numbers commas : Nat) (f : Sketch) : Prop :=
  f.Holds .repetition ∧ 1 ≤ f.nodes.length ∧
    (∀ t ∈ f.tokens, t.kind = .number → ∃ n, readNumeral? t.text = some n) ∧
    (f.tokens.countP fun t => t.kind == .number) = numbers ∧ (f.tokens.countP fun t => t.kind == .comma) = commas

namespace Sketch

variable {f : Sketch} {t : Token} {numbers commas : Nat}

theorem Single.holds (h : f.Single) (k : Kind) : (f.named k).Holds k := by
  obtain ⟨-, -, x, hx, hnodes⟩ := h
  refine ⟨rfl, fun y hy => ?_⟩
  rw [show (f.named k).nodes = [x] from hnodes, List.mem_singleton] at hy
  rw [hy]
  exact hx

theorem Single.length_nodes (h : f.Single) : f.nodes.length = 1 := by
  obtain ⟨-, -, x, -, hnodes⟩ := h
  rw [hnodes]
  rfl

theorem Counts.addNumber (h : f.Counts numbers commas) {n : Nat} (hk : t.kind = .number)
    (hn : readNumeral? t.text = some n) : (f.addToken t).Counts (numbers + 1) commas := by
  obtain ⟨hholds, hnodes, hread, hnumbers, hcommas⟩ := h
  refine ⟨hholds, hnodes, List.forall_mem_cons.mpr ⟨fun _ => ⟨n, hn⟩, hread⟩, ?_, ?_⟩
  · simp [addToken, hk, hnumbers]
  · simp [addToken, hk, hcommas]

theorem Counts.addComma (h : f.Counts numbers commas) (hk : t.kind = .comma) :
    (f.addToken t).Counts numbers (commas + 1) := by
  obtain ⟨hholds, hnodes, hread, hnumbers, hcommas⟩ := h
  refine ⟨hholds, hnodes, List.forall_mem_cons.mpr ⟨fun h => ?_, hread⟩, ?_, ?_⟩
  · rw [hk] at h
    cases h
  · simp [addToken, hk, hnumbers]
  · simp [addToken, hk, hcommas]

theorem Counts.whole (h : f.Counts numbers commas) (hle : (if 0 < commas then 2 else 1) ≤ numbers) :
    f.Whole .repetition := by
  obtain ⟨hholds, hnodes, hread, rfl, rfl⟩ := h
  refine ⟨hholds, hnodes, hread, ?_⟩
  convert hle using 2
  simp [List.countP_pos_iff]

end Sketch

theorem shows_bounds (h : s.Shows (Inside Single R)) :
    Ensures (bounds s) fun t => t.Shows (Inside (Whole .repetition) R) := by
  have hopened : Ensures ((s.wrap .repetition).openDelimiter .braceOpen) fun t => t.Shows (Inside (Counts 0 0) R) := by
    refine shows_openDelimiter (P := Counts 0 0) (shows_wrap h fun f hf => ?_) fun f t hk hf => ?_
    · have htokens : (f.named .repetition).tokens = [] := hf.2.1
      refine ⟨hf.holds _, hf.length_nodes.ge, ?_, ?_, ?_⟩ <;> simp [htokens]
    · obtain ⟨hholds, hnodes, hread, hnumbers, hcommas⟩ := hf
      refine ⟨hholds, hnodes, List.forall_mem_cons.mpr ⟨fun h => ?_, hread⟩, ?_, ?_⟩
      · rw [hk] at h
        cases h
      · simp [addToken, hk, hnumbers]
      · simp [addToken, hk, hcommas]
  unfold bounds
  refine Ensures.bind hopened fun t ht => ?_
  refine Ensures.bind (shows_bound ht fun f t n hk hn hf => hf.addNumber hk hn) fun u hu => ?_
  have hupper : Ensures (upperBound u) fun v => v.Shows (Inside (Whole .repetition) R) := by
    unfold upperBound
    split
    · rename_i hlooks
      have hcomma := shows_bump_of_current (looksAt_iff.mp hlooks) hu fun f t hk hf => hf.addComma hk
      refine Ensures.bind hcomma fun v hv => ?_
      exact shows_bound hv fun f t n hk hn hf => (hf.addNumber hk hn).whole le_rfl
    · exact .ok (hu.mono fun fs hfs => hfs.mono (fun f hf => hf.whole le_rfl) fun _ hR => hR)
  refine Ensures.bind hupper fun v hv => shows_closeDelimiter hv (fun f t hk hf => ?_) _
  obtain ⟨hholds, hnodes, hread, hcount⟩ := hf
  refine ⟨hholds, hnodes, List.forall_mem_cons.mpr ⟨fun h => ?_, hread⟩, ?_⟩
  · rw [hk] at h
    cases h
  · simpa [addToken, hk] using hcount

theorem shows_closeNode_of_ready {strength : Strength} (h : s.Shows (Inside (Ready strength) (Receives Formed Q))) :
    Ensures s.closeNode fun t => t.Shows Q := by
  intro t ht hflawless
  obtain ⟨hready, hreceives⟩ := h ((Move.closed ht).flawless hflawless)
  obtain hsingle | ⟨k, -, hwhole⟩ := hready
  · exact shows_closeNode_of_single (fun _ => ⟨hsingle, hreceives⟩) t ht hflawless
  · exact shows_closeNode (T := Formed) (fun _ => ⟨hwhole.yields, hreceives⟩) t ht hflawless

theorem Sketch.Ready.single {f : Sketch} {strength : Strength} (h : f.Ready strength) (hnone : strength.chain? = none) :
    f.Single := by
  obtain hsingle | ⟨k, hk, -⟩ := h
  · exact hsingle
  · rw [hnone] at hk
    cases hk

theorem shows_weightValue (h : s.Shows (Inside Single R)) :
    Ensures (weightValue s) fun t => t.Shows (Inside (Holds .weight) R) := by
  unfold weightValue
  have hwrapped : (s.wrap .weight).Shows (Inside (Holds .weight) R) := shows_wrap h fun f hf => hf.holds _
  refine Ensures.bind (shows_bump hwrapped (N := Holds .weight) fun f t _ _ hf => hf) fun t ht => ?_
  refine Ensures.bind (shows_expect ht (N := Holds .weight) (fun f t _ hf => hf) _ _) fun u hu => ?_
  exact shows_expect hu (fun f t _ hf => hf) _ _

/-- One more operator leaves the chain with as many operators as operands, so it takes one more operand. -/
theorem stepShows_chainLink {node op : Kind} {strength : Strength} (hnode : strength.chain? = some node)
    (hshape : ∀ n ts, Shape node n ts ↔ n = (ts.countP fun t => t.kind == op) + 1) (hk : s.current = op)
    (h : s.Shows (Inside (Ready strength) (Receives Formed (Awaits goals)))) (operator : String) (tighter : Strength) :
    StepShows goals (chainLink node operator strength tighter s) := by
  have hwrapped : (s.wrap node).Shows (Inside (Whole node) (Receives Formed (Awaits goals))) := by
    refine shows_wrap h fun f hf => ?_
    obtain hsingle | ⟨k, hk', hwhole⟩ := hf
    · refine ⟨hsingle.holds node, (hshape _ _).mpr ?_⟩
      rw [show (f.named node).tokens = [] from hsingle.2.1]
      exact hsingle.length_nodes
    · rw [hnode] at hk'
      cases hk'
      exact ⟨⟨rfl, hwhole.1.2⟩, hwhole.2⟩
  unfold chainLink
  refine Ensures.bind (shows_bump_of_current (s := s.wrap node) hk hwrapped
    (N := fun f => f.Holds node ∧ f.nodes.length = f.tokens.countP fun t => t.kind == op)
    fun f t ht hf => ?_) fun t ht => ?_
  · refine ⟨hf.1, ?_⟩
    have hlength := (hshape _ _).mp hf.2
    simpa [addToken, ht] using hlength
  · refine stepShows_operandAfter operator tighter [.suffixOf strength]
      (ht.mono fun fs hfs => hfs.receives fun f x hf hx => ?_)
    exact .inr ⟨node, hnode, hf.1.addNode hx, (hshape _ _).mpr (congrArg (· + 1) hf.2)⟩

theorem stepShows_suffixStep {strength : Strength}
    (h : s.Shows (Inside (Ready strength) (Receives Formed (Awaits goals)))) :
    StepShows goals (suffixStep strength s) := by
  have hclose := stepShows_done (shows_closeNode_of_ready h)
  have hsingle (hnone : strength.chain? = none) : s.Shows (Inside Single (Receives Formed (Awaits goals))) :=
    h.mono fun fs hfs => hfs.mono (fun f hf => hf.single hnone) fun _ hR => hR
  cases strength with
  | closure =>
      simp only [suffixStep]
      split
      · rename_i hlooks
        refine stepShows_done (Ensures.bind (shows_bump (P := fun f => f.Holds .closure ∧ f.nodes.length = 1)
          (shows_wrap (hsingle rfl) fun f hf => ⟨hf.holds _, hf.length_nodes⟩) (N := Whole .closure) ?_) fun t ht => ?_)
        · intro f t hkind _ hf
          refine ⟨hf.1, hf.2.ge, t, List.mem_cons_self, ?_⟩
          rw [hkind]
          exact hlooks
        · exact shows_closeNode_of ht fun f hf => hf.yields
      · exact hclose
  | repetition =>
      simp only [suffixStep]
      split
      · refine stepShows_done (Ensures.bind (shows_bounds (hsingle rfl)) fun t ht => ?_)
        exact shows_closeNode_of ht fun f hf => hf.yields
      · exact hclose
  | weight =>
      simp only [suffixStep]
      split
      · refine stepShows_done (Ensures.bind (shows_weightValue (hsingle rfl)) fun t ht => ?_)
        exact shows_closeNode_of ht fun f hf => Whole.yields ⟨hf, trivial⟩
      · exact hclose
  | output =>
      simp only [suffixStep]
      split
      · refine Ensures.bind (shows_bump (P := fun f => f.Holds .output ∧ f.nodes.length = 1)
          (shows_wrap (hsingle rfl) fun f hf => ⟨hf.holds _, hf.length_nodes⟩)
          (N := fun f => f.Holds .output ∧ f.nodes.length = 1) fun f t _ _ hf => hf) fun t ht => ?_
        refine stepShows_operandAfter ":" .weight [.endOutput]
          (ht.mono fun fs hfs => hfs.receives fun f x hf hx => ?_)
        exact ⟨hf.1.addNode hx, (congrArg (· + 1) hf.2).ge⟩
      · exact hclose
  | concat =>
      simp only [suffixStep]
      split
      · have hwrapped : (s.wrap .concat).Shows (Inside (Holds .concat) (Receives Formed (Awaits goals))) := by
          refine shows_wrap h fun f hf => ?_
          obtain hsingle | ⟨k, -, hwhole⟩ := hf
          · exact hsingle.holds _
          · exact ⟨rfl, hwhole.1.2⟩
        refine stepShows_operand .output [.suffixOf .concat]
          (hwrapped.mono fun fs hfs => hfs.receives fun f x hf hx => ?_)
        exact .inr ⟨.concat, rfl, hf.addNode hx, Nat.le_add_left 1 _⟩
      · exact hclose
  | diff =>
      simp only [suffixStep]
      split
      · exact stepShows_chainLink rfl (fun _ _ => Iff.rfl) (looksAt_iff.mp (by assumption)) h "-" .concat
      · exact hclose
  | union =>
      simp only [suffixStep]
      split
      · exact stepShows_chainLink rfl (fun _ _ => Iff.rfl) (looksAt_iff.mp (by assumption)) h "|" .diff
      · exact hclose
  | compose =>
      simp only [suffixStep]
      split
      · exact stepShows_chainLink rfl (fun _ _ => Iff.rfl) (looksAt_iff.mp (by assumption)) h "@" .union
      · exact hclose

theorem shows_endGroup (h : s.Shows (Inside (Whole .nested) (Receives Formed Q))) :
    Ensures (endGroup s) fun t => t.Shows Q := by
  unfold endGroup
  refine Ensures.bind (shows_closeDelimiter h (fun f t _ hf => hf) _) fun t ht => ?_
  exact shows_closeNode_of ht fun f hf => hf.yields

/-! ### Statements -/

theorem stepShows_statementBody {form : Form}
    (h : s.Shows (Receives Formed (Inside Ending (Receives StmtFormed (Awaits goals))))) :
    StepShows goals (statementBody form s) := by
  unfold statementBody
  split
  · exact .ok h
  · split
    · exact (spoils_report s _ _).stepShows
    · exact (spoils_report _ _ _).stepShows

theorem stepShows_endStatement {form : Form} (h : s.Shows (Inside Ending (Receives StmtFormed (Awaits goals)))) :
    StepShows goals (endStatement form s) := by
  have htoken (f : Sketch) (t : Token) (hf : f.Ending) : (f.addToken t).Ending := by
    obtain ⟨⟨hholds, u, hu, hk⟩, hne⟩ | hother := hf
    · exact .inl ⟨⟨hholds, u, List.mem_cons_of_mem t hu, hk⟩, hne⟩
    · exact .inr hother
  unfold endStatement
  split
  · refine stepShows_done (Ensures.bind (shows_expectSemicolon h (fun f t _ => htoken f t) _) fun t ht => ?_)
    exact shows_closeNode_of ht fun f hf => hf.yields
  · exact (spoils_report _ _ _).stepShows

theorem stepShows_definition (h : s.Shows (Receives StmtFormed (Awaits goals))) : StepShows goals (definition s) := by
  unfold definition
  refine Ensures.bind (shows_skipOne (shows_openNode (holds_opened .varDef) h) fun f t _ hf => hf) fun t ht => ?_
  refine Ensures.bind
    (shows_expect ht (N := Named) (fun f t hk hf => ⟨hf, t, List.mem_cons_self, hk⟩) _ _) fun u hu => ?_
  refine Ensures.bind (shows_expect hu (N := Named) (fun f t _ hf => ?_) _ _) fun v hv => ?_
  · obtain ⟨hholds, u, hu, hk⟩ := hf
    exact ⟨hholds, u, List.mem_cons_of_mem t hu, hk⟩
  · refine stepShows_statementBody (hv.mono fun fs hfs => hfs.receives fun f x hf hx => .inl ⟨?_, List.cons_ne_nil _ _⟩)
    exact ⟨hf.1.addNode hx, hf.2⟩

theorem stepShows_returnStatement (h : s.Shows (Receives StmtFormed (Awaits goals))) :
    StepShows goals (returnStatement s) := by
  unfold returnStatement
  refine Ensures.check (Ensures.bind (shows_bump (shows_openNode (P := fun f => f.kind = some .returnStmt) rfl h)
    (N := fun f => f.kind = some .returnStmt) fun f t _ _ hf => hf) fun t ht => ?_)
  exact stepShows_statementBody (ht.mono fun fs hfs => hfs.receives fun f x hf _ => .inr ⟨_, hf, by decide⟩)

theorem shows_importPath {P : Sketch → Prop} (h : s.Shows (Inside P R)) (hP : ∀ f x, P f → P (f.addNode x)) :
    Ensures (importPath s) fun t => t.Shows (Inside P R) := by
  have hreceives : s.Shows (Receives Formed (Inside P R)) := h.mono fun _ hfs => hfs.receives fun f x hf _ => hP f x hf
  unfold importPath
  split
  · exact shows_string hreceives
  · exact shows_string hreceives
  · exact (spoils_unterminatedString s).shows
  · exact (spoils_report s _ _).shows

/-- A frame that is closed as a statement of which nothing is asked. -/
theorem shows_closeNode_of_kind {k : Kind} (hk : k ≠ .varDef ∧ k ≠ .funcDef)
    (h : s.Shows (Inside (fun f => f.kind = some k) (Receives StmtFormed Q))) :
    Ensures s.closeNode fun t => t.Shows Q :=
  shows_closeNode_of h fun _ hf => Ending.yields (.inr ⟨k, hf, hk⟩)

theorem shows_importStatement (h : s.Shows (Receives StmtFormed Q)) :
    Ensures (importStatement s) fun t => t.Shows Q := by
  unfold importStatement
  refine Ensures.check (Ensures.bind (shows_bump (shows_openNode (P := fun f => f.kind = some .importStmt) rfl h)
    (N := fun f => f.kind = some .importStmt) fun f t _ _ hf => hf) fun t ht => ?_)
  refine Ensures.bind (shows_importPath ht fun f x hf => hf) fun u hu => ?_
  refine Ensures.bind (shows_expect hu (N := fun f => f.kind = some .importStmt) (fun f t _ hf => hf) _ _) fun v hv => ?_
  refine Ensures.bind (shows_expect hv (N := fun f => f.kind = some .importStmt) (fun f t _ hf => hf) _ _) fun w hw => ?_
  refine Ensures.bind (shows_expectSemicolon hw (fun f t _ hf => hf) _) fun x hx => ?_
  exact shows_closeNode_of_kind (by decide) hx

/-! ### Functions -/

/-- The frames of a function whose parameters are being read. -/
abbrev InParameters (Q : List Sketch → Prop) : List Sketch → Prop :=
  Inside (fun f => f.kind = some .params) (Receives (fun x => x.kind = .params) Q)

/-- The frame of a function whose body is being read. -/
abbrev InFunction (Q : List Sketch → Prop) : List Sketch → Prop :=
  Inside Headed (Receives StmtFormed Q)

theorem shows_endParameters (h : s.Shows (InParameters Q)) : Ensures (endParameters s) fun t => t.Shows Q := by
  unfold endParameters
  refine Ensures.bind (shows_closeDelimiter h (fun f t _ hf => hf) _) fun t ht => ?_
  exact shows_closeNode_of ht fun f hf => yields_of hf fun _ _ _ => rfl

theorem shows_openParameters (h : s.Shows (InFunction Q)) :
    Ensures (openParameters s) fun t => t.Shows (InParameters (InFunction Q)) := by
  have hopened {t : State} (ht : t.Shows (InFunction Q)) :
      t.Shows (Receives (fun x => x.kind = .params) (InFunction Q)) :=
    ht.mono fun _ hfs => hfs.receives fun _ _ hf _ => hf
  unfold openParameters
  split
  · refine Ensures.map (shows_bump h (N := Headed) fun f t _ _ hf => hf.addToken t) fun t ht => ?_
    exact shows_openTight (P := fun f => f.kind = some .params) rfl (hopened ht)
  · exact (spoils_report s _ _).map fun t ht hflawless => absurd hflawless.1 ht

theorem stepShows_functionStatement (h : s.Shows (Receives StmtFormed (Awaits goals))) :
    StepShows goals (functionStatement s) := by
  unfold functionStatement
  refine Ensures.check (Ensures.bind (shows_bump (shows_openNode (P := fun f => f.kind = some .funcDef) rfl h)
    (N := Headed) fun f t _ _ hf => ⟨hf, List.cons_ne_nil t f.tokens⟩) fun t ht => ?_)
  refine Ensures.bind (shows_openParameters ht) fun u hu => ?_
  split
  · refine Ensures.bind (shows_openDelimiter hu (N := fun f => f.kind = some .params) fun f t _ hf => hf) fun v hv => ?_
    split
    · exact stepShows_leaving (shows_endParameters hv)
    · exact .ok hv
  · refine Ensures.bind (spoils_report u _ _) fun v hv => Spoils.stepShows fun w hw hclean => ?_
    exact hv ((Move.closed hw).clean hclean)

theorem stepShows_parameters (h : s.Shows (InParameters (Awaits goals))) : StepShows goals (parameters s) := by
  unfold parameters
  refine Ensures.bind (shows_expect h (N := fun f => f.kind = some .params) (fun f t _ hf => hf) _ _) fun t ht => ?_
  split
  · exact stepShows_leaving (shows_bump ht fun f t _ _ hf => hf)
  · exact stepShows_done (shows_endParameters ht)

theorem inFunction_deliverAll {xs : List Tree} {fs : List Sketch} (h : InFunction Q fs) :
    InFunction Q (deliverAll xs fs) := by
  induction xs generalizing fs with
  | nil => exact h
  | cons x xs ih => exact ih (h.receives (T := fun _ => True) (fun f x hf _ => hf) x trivial)

theorem stepShows_functionBody (h : s.Shows (InFunction (Awaits goals))) : StepShows goals (functionBody s) := by
  unfold functionBody
  split
  · refine stepShows_leaving ((shows_openDelimiter h (N := Headed) fun f t _ hf => hf.addToken t).mono
      fun t ht => ht.mono fun fs hfs xs _ => inFunction_deliverAll hfs)
  · refine stepShows_done (Spoils.shows ((spoils_report s _ _).bind fun t u hu hclean => ?_))
    exact (Move.closed hu).clean hclean

theorem shows_endBody (h : s.Shows (InFunction Q)) : Ensures (endBody s) fun t => t.Shows Q := by
  unfold endBody
  refine Ensures.bind (shows_closeDelimiter h (fun f t _ hf => hf.addToken t) _) fun t ht => ?_
  exact shows_closeNode_of ht fun f hf => hf.yields

/-! ### Runs -/

theorem stepShows_recovery (message : String) (s : State) : StepShows goals (recovery message s) := by
  unfold recovery
  refine Ensures.bind (spoils_report _ _ _) fun t ht => Spoils.stepShows fun u hu hclean => ?_
  exact ht ((Move.bumped hu).clean hclean)

theorem stepShows_statement (h : s.Shows (Receives StmtFormed (Awaits goals))) : StepShows goals (statement s) := by
  unfold statement
  split
  · exact stepShows_definition h
  · exact stepShows_definition h
  · exact stepShows_done (shows_importStatement h)
  · exact stepShows_functionStatement h
  · exact stepShows_returnStatement h
  · exact stepShows_recovery _ s

theorem stepShows_statements {inBody : Bool} (h : s.Shows (Awaits (.statements inBody :: goals))) :
    StepShows goals (statements inBody s) := by
  unfold statements
  split
  · exact .ok (h.mono fun fs hfs => hfs [] fun _ hx => nomatch hx)
  · have hone : s.Shows (Receives StmtFormed (Awaits (.statements inBody :: goals))) :=
      h.mono fun fs hfs x hx xs hxs => hfs (x :: xs) (List.forall_mem_cons.mpr ⟨hx, hxs⟩)
    have hfirst : StepShows (.statements inBody :: goals)
        (if s.current = .braceClose then recovery "`\x7d` without an open function body" s else statement s) := by
      split
      · exact stepShows_recovery _ s
      · exact stepShows_statement hone
    refine Ensures.map hfirst fun a ha => ?_
    simpa only [List.append_assoc, List.singleton_append] using ha

theorem stepShows_act {g : Goal} (h : s.Shows (Awaits (g :: goals))) : StepShows goals (act g s) := by
  have hnever (R : List Sketch → Prop) {t : State} (ht : t.Shows fun _ => False) :
      t.Shows (Inside (fun _ => False) (Receives Formed R)) :=
    ht.mono fun _ hfs => hfs.elim
  cases g with
  | statements inBody => exact stepShows_statements h
  | parameters => exact stepShows_parameters h
  | functionBody => exact stepShows_functionBody h
  | endBody => exact stepShows_done (shows_endBody h)
  | skip =>
      simp only [act, skip]
      split
      · exact .ok fun hs => (h hs).elim
      · exact stepShows_leaving fun t ht hflawless => (h ((Move.bumped ht).flawless hflawless)).elim
  | endRecovery =>
      refine stepShows_done (Ensures.bind (shows_skipOne (hnever (Awaits goals) h) fun f t _ hf => hf) fun t ht => ?_)
      exact shows_closeNode_of ht fun f hf => hf.elim
  | endSkipped =>
      have hclosed := shows_closeNode_of (hnever (fun _ => False) h) fun f hf => hf.elim
      refine stepShows_done (Ensures.bind hclosed fun t ht => ?_)
      refine Ensures.bind (shows_skipOne (hnever (Awaits goals) ht) fun f t _ hf => hf) fun u hu => ?_
      exact shows_closeNode_of hu fun f hf => hf.elim
  | endStatement form => exact stepShows_endStatement h
  | expression => exact stepShows_expression h
  | leaveExpression => exact .ok h
  | suffixOf strength => exact stepShows_suffixStep h
  | endOutput => exact stepShows_done (shows_closeNode_of h fun f hf => hf.yields)
  | arguments => exact stepShows_moreArguments h
  | endGroup => exact stepShows_done (shows_endGroup h)

theorem shows_run (h : s.Shows (Awaits goals)) : Ensures (run goals s) fun t => t.Shows (Awaits []) := by
  fun_induction run goals s with
  | case1 s => exact .ok h
  | case2 g goals s fault hact => exact .error
  | case3 g goals s new t hact ih => exact ih (stepShows_act h _ hact)

theorem awaits_start (limits : Limits) (tokens : List Token) :
    (State.start limits tokens).Shows (Awaits [.statements false]) := by
  have hall (xs : List Tree) (hxs : ∀ x ∈ xs, StmtFormed x) (f : Sketch) (hf : ∀ x ∈ f.nodes, StmtFormed x) :
      Awaits [] (deliverAll xs [f]) := by
    induction xs generalizing f with
    | nil => exact ⟨hf, rfl⟩
    | cons x xs ih =>
        obtain ⟨hx, hxs⟩ := List.forall_mem_cons.mp hxs
        exact ih hxs (f.addNode x) (List.forall_mem_cons.mpr ⟨hx, hf⟩)
  exact fun _ xs hxs => hall xs hxs _ fun _ hx => nomatch hx

end Steps

/-- If nothing is reported, every statement of the root is formed. -/
theorem stmtFormed_root {limits : Limits} {tokens : List Token} {s : State}
    (hrun : run [.statements false] (.start limits tokens) = .ok s) (hs : s.Flawless) :
    ∀ x ∈ nodesOf s.flush.top.children.reverse, StmtFormed x := by
  have hroot := shows_run (awaits_start limits tokens) s hrun hs
  rw [← outline_flush] at hroot
  intro x hx
  rw [nodesOf_reverse] at hx
  exact hroot.1 x (List.mem_reverse.mp hx)

end Transducer.Parse
