import Transducer.Proofs.Parse.Balance
import Transducer.Proofs.Parse.Grammar

/-!
# Operations and languages

A state is clean while nothing has been reported. `Parses s P` says that the state is clean and that the significant
tokens ahead are a word of `P`. An operation is exact for two languages if the one describes the tokens ahead of it
precisely when the other describes those behind it. Exact operations compose like Hoare triples, and since each is an
equivalence they show at once that nothing outside of the grammar is accepted and that nothing inside of it is refused.
-/

namespace Transducer.Parse

open Grammar State Computability

namespace State

def significant (s : State) : List Token := s.rest.filter fun t => !t.isTrivia

/-- Nothing has been reported. -/
def Clean (s : State) : Prop := s.diagnostics = [] ∧ s.claimed = none

/-- The state is clean, and the significant tokens ahead are a word of the language. -/
def Parses (s : State) (P : Language Token) : Prop := s.Clean ∧ s.significant ∈ P

variable {s t : State} {P Q : Language Token} {k : Kind} {ks : List Kind}

/-! ### The next significant tokens -/

theorem filter_significant_dropTrivia (ts : List Token) :
    (ts.dropWhile Token.isTrivia).filter (fun t => !t.isTrivia) = ts.filter fun t => !t.isTrivia := by
  induction ts with
  | nil => rfl
  | cons t ts ih =>
      by_cases ht : t.isTrivia = true
      · rw [List.dropWhile_cons_of_pos ht, ih, List.filter_cons_of_neg (by simp [ht])]
      · rw [List.dropWhile_cons_of_neg ht]

theorem filter_significant_of_dropTrivia {ts rest : List Token} {next : Token}
    (h : ts.dropWhile Token.isTrivia = next :: rest) :
    ts.filter (fun t => !t.isTrivia) = next :: rest.filter fun t => !t.isTrivia := by
  have hnext : next.isTrivia = false := by
    have hhead := List.head?_dropWhile_not Token.isTrivia ts
    rw [h] at hhead
    exact hhead
  rw [← filter_significant_dropTrivia, h, List.filter_cons_of_pos]
  rw [hnext]
  rfl

theorem significant_of_ahead {next : Token} {rest : List Token} (h : s.ahead = next :: rest) :
    s.significant = next :: rest.filter fun t => !t.isTrivia :=
  filter_significant_of_dropTrivia h

theorem significant_of_atEnd (h : s.atEnd = true) : s.significant = [] := by
  rw [significant, ← filter_significant_dropTrivia, ← State.ahead, List.isEmpty_iff.mp h]
  rfl

/-- What is next, seen from the tokens and from the state. -/
theorem significant_cases (s : State) :
    (s.significant = [] ∧ s.current = .error ∧ s.atEnd = true) ∨
      ∃ next rest, s.ahead = next :: rest ∧ s.significant = next :: rest.filter (fun t => !t.isTrivia) ∧
        s.current = next.kind ∧ s.currentText = next.text := by
  cases hahead : s.ahead with
  | nil =>
      have hend : s.atEnd = true := by
        rw [atEnd, hahead]
        rfl
      exact .inl ⟨significant_of_atEnd hend, by rw [current, hahead], hend⟩
  | cons next rest =>
      exact .inr ⟨next, rest, rfl, significant_of_ahead hahead, current_of_ahead hahead, by rw [currentText, hahead]⟩

/-- The kind of the next token is one that the language starts with. -/
theorem Parses.current_mem (h : s.Parses P) (hP : Starts P ks) : s.current ∈ ks := by
  obtain ⟨next, rest, hword, hmem⟩ := hP _ h.2
  obtain ⟨hnil, -⟩ | ⟨next', rest', -, hcons, hcurrent, -⟩ := s.significant_cases
  · rw [hnil] at hword
    cases hword
  · rw [hcons] at hword
    cases hword
    rw [hcurrent]
    exact hmem

theorem Parses.current_not_mem (h : s.Parses P) (hP : Avoids P ks) (herror : .error ∉ ks) : s.current ∉ ks := by
  obtain ⟨-, hcurrent, -⟩ | ⟨next, rest, -, hcons, hcurrent, -⟩ := s.significant_cases
  · rw [hcurrent]
    exact herror
  · rw [hcurrent]
    exact hP next _ (hcons ▸ h.2)

theorem isFollowedBy_eq (s : State) (k : Kind) : s.isFollowedBy k = (s.significant[1]?.any fun t => t.kind == k) := by
  rw [isFollowedBy]
  cases hahead : s.ahead with
  | nil =>
      rw [significant, ← filter_significant_dropTrivia, ← State.ahead, hahead]
      rfl
  | cons next after =>
      rw [significant_of_ahead hahead, List.drop_succ_cons, List.drop_zero, List.getElem?_cons_succ]
      cases hdrop : after.dropWhile Token.isTrivia with
      | nil =>
          rw [← filter_significant_dropTrivia, hdrop]
          rfl
      | cons second rest =>
          rw [filter_significant_of_dropTrivia hdrop]
          rfl

/-- What follows the next token is what is next once it is consumed. -/
theorem isFollowedBy_iff {next : Token} (h : s.significant = next :: t.significant) (hk : k ≠ .error) :
    s.isFollowedBy k = true ↔ t.current = k := by
  rw [isFollowedBy_eq, h, List.getElem?_cons_succ]
  obtain ⟨hnil, hcurrent, -⟩ | ⟨second, rest, -, hcons, hcurrent, -⟩ := t.significant_cases
  · rw [hnil, hcurrent]
    exact ⟨fun h => (nomatch h), fun h => absurd h.symm hk⟩
  · rw [hcons, hcurrent]
    exact beq_iff_eq

/-! ### Silent changes -/

@[simp] theorem significant_openNode (s : State) (kind : Kind) : (s.openNode kind).significant = s.significant :=
  filter_significant_dropTrivia s.rest

@[simp] theorem parses_flush : s.flush.Parses P ↔ s.Parses P := by
  simp only [Parses, Clean, significant, flush, State.ahead, filter_significant_dropTrivia]

@[simp] theorem parses_openNode (kind : Kind) : (s.openNode kind).Parses P ↔ s.Parses P :=
  parses_flush (s := s) (P := P)

@[simp] theorem parses_wrap (kind : Kind) : (s.wrap kind).Parses P ↔ s.Parses P := Iff.rfl

@[simp] theorem parses_descend : s.descend.Parses P ↔ s.Parses P := by
  obtain ⟨depth, hdescend⟩ := s.descend_eq
  rw [hdescend]
  rfl

@[simp] theorem parses_ascend : s.ascend.Parses P ↔ s.Parses P := Iff.rfl

theorem parses_marks (strengths : List Strength) :
    (strengths.foldl (fun s _ => s.mark) s).Parses P ↔ s.Parses P := by
  induction strengths generalizing s with
  | nil => rfl
  | cons strength strengths ih => exact ih.trans (parses_flush (s := s) (P := P))

/-! ### Reports stay -/

theorem Move.clean (h : Move s t) (ht : t.Clean) : s.Clean := by
  cases h with
  | closed h =>
      obtain ⟨frame, below, -, rfl⟩ := closeNode_eq_ok h
      exact ht
  | bumped h =>
      obtain ⟨token, ts, -, rfl⟩ := bump_eq_ok h
      exact ht
  | claimed h =>
      obtain ⟨rfl, -⟩ | ⟨d, -, -, rfl⟩ := claim_eq_ok h
      · exact ht
      · cases ht.1
  | descended =>
      obtain ⟨depth, hdescend⟩ := s.descend_eq
      rw [hdescend] at ht
      exact ht
  | flushed => exact ht
  | opened kind => exact ht
  | wrapped kind _ => exact ht
  | remembered kind => exact ht
  | forgotten h => exact ht
  | ascended => exact ht

theorem Reaches.clean (h : Reaches s t) (ht : t.Clean) : s.Clean := by
  induction h with
  | refl => exact ht
  | tail _ hmove ih => exact ih (hmove.clean ht)

theorem Move.clean_of_diagnostics (h : Move s t) (hs : s.diagnostics = [] → s.Clean) (ht : t.diagnostics = []) :
    t.Clean := by
  cases h with
  | closed h =>
      obtain ⟨frame, below, -, rfl⟩ := closeNode_eq_ok h
      exact hs ht
  | bumped h =>
      obtain ⟨token, ts, -, rfl⟩ := bump_eq_ok h
      exact hs ht
  | claimed h =>
      obtain ⟨rfl, -⟩ | ⟨d, -, -, rfl⟩ := claim_eq_ok h
      · exact hs ht
      · cases ht
  | descended =>
      obtain ⟨depth, hdescend⟩ := s.descend_eq
      rw [hdescend] at ht ⊢
      exact hs ht
  | flushed => exact hs ht
  | opened kind => exact hs ht
  | wrapped kind _ => exact hs ht
  | remembered kind => exact hs ht
  | forgotten h => exact hs ht
  | ascended => exact hs ht

theorem Reaches.clean_iff (h : Reaches s t) (hs : s.Clean) : t.Clean ↔ t.diagnostics = [] := by
  refine ⟨fun ht => ht.1, ?_⟩
  exact h.preserves (p := fun u => u.diagnostics = [] → u.Clean) (fun _ => hs)
    fun _ _ hmove hu => hmove.clean_of_diagnostics hu

/-! ### Lookahead -/

theorem parses_add_of_not (h : ¬ s.Parses Q) : s.Parses (P + Q) ↔ s.Parses P := by
  constructor
  · rintro ⟨hclean, hword⟩
    obtain hword | hword := (Language.mem_add _ _ _).mp hword
    · exact ⟨hclean, hword⟩
    · exact absurd ⟨hclean, hword⟩ h
  · rintro ⟨hclean, hword⟩
    exact ⟨hclean, (Language.mem_add _ _ _).mpr (.inl hword)⟩

theorem parses_add_of_not_left (h : ¬ s.Parses P) : s.Parses (P + Q) ↔ s.Parses Q := by
  rw [add_comm]
  exact parses_add_of_not h

theorem not_parses_add (hP : ¬ s.Parses P) (hQ : ¬ s.Parses Q) : ¬ s.Parses (P + Q) :=
  fun h => hP ((parses_add_of_not hQ).mp h)

theorem parses_add_left (hQ : Starts Q ks) (hk : s.current ∉ ks) : s.Parses (P + Q) ↔ s.Parses P :=
  parses_add_of_not fun h => hk (h.current_mem hQ)

theorem parses_add_right (hP : Starts P ks) (hk : s.current ∉ ks) : s.Parses (P + Q) ↔ s.Parses Q :=
  parses_add_of_not_left fun h => hk (h.current_mem hP)

/-- Something optional is there, since what comes after it cannot start like this. -/
theorem parses_opt_pos (hk : s.current = k) (hQ : Avoids Q ks) (hmem : k ∈ ks) (herror : .error ∉ ks) :
    s.Parses ((1 + P) * Q) ↔ s.Parses (P * Q) := by
  rw [add_mul, one_mul, add_comm]
  exact parses_add_of_not fun h => h.current_not_mem hQ herror (hk ▸ hmem)

/-- Something optional is not there, since it cannot start like this. -/
theorem parses_opt_neg (hP : Starts P ks) (hk : s.current ∉ ks) : s.Parses ((1 + P) * Q) ↔ s.Parses Q := by
  rw [add_mul, one_mul]
  exact parses_add_left (hP.mul Q) hk

end State

/-! ### Exact operations -/

/-- The tokens ahead of the operation are a word of `P` precisely when those behind it are one of `Q`. -/
def Exact (P Q : Language Token) (s : State) (r : Except Fault State) : Prop :=
  Ensures r fun t => s.Parses P ↔ t.Parses Q

/-- The operation reports something. -/
def Spoils (r : Except Fault State) : Prop := Ensures r fun t => ¬ t.Clean

section Operations

variable {s : State} {P Q R : Language Token} {k : Kind} {r : Except Fault State}

theorem Exact.bind {f : State → Except Fault State} (hr : Exact P Q s r) (hf : ∀ t, Exact Q R t (f t)) :
    Exact P R s (r >>= f) :=
  Ensures.bind hr fun t ht => (hf t).mono fun _ hu => ht.trans hu

theorem Exact.congr {s' : State} {P' : Language Token} (hr : Exact P Q s r) (h : s'.Parses P' ↔ s.Parses P) :
    Exact P' Q s' r :=
  hr.mono fun _ ht => h.trans ht

theorem Spoils.exact (hr : Spoils r) (h : ¬ s.Parses P) : Exact P Q s r :=
  hr.mono fun _ ht => ⟨fun hs => absurd hs h, fun hparses => absurd hparses.1 ht⟩

theorem ensures_bump_significant (s : State) :
    Ensures s.bump fun t => ∃ next, next.kind = s.current ∧ next.text = s.currentText ∧
      s.significant = next :: t.significant ∧ (t.Clean ↔ s.Clean) ∧ t.delimiters = s.delimiters := by
  intro t ht
  obtain ⟨next, rest, hahead, rfl⟩ := bump_eq_ok ht
  exact ⟨next, (current_of_ahead hahead).symm, by rw [currentText, hahead], significant_of_ahead hahead, Iff.rfl, rfl⟩

theorem exact_bump (hk : s.current = k) : Exact (lang (tok k) * P) P s s.bump := by
  refine (ensures_bump_significant s).mono fun t ht => ?_
  obtain ⟨next, hkind, -, hsignificant, hclean, -⟩ := ht
  rw [Parses, Parses, hsignificant, cons_mem_tok_mul, hclean, hkind, hk]
  simp only [true_and]

theorem exact_openNode_bump (hk : s.current = k) (kind : Kind) (P : Language Token) :
    Exact (lang (tok k) * P) P s (s.openNode kind).bump :=
  (exact_bump ((current_openNode s kind).trans hk)).congr (parses_openNode kind).symm

theorem exact_closeNode (s : State) (P : Language Token) : Exact P P s s.closeNode := by
  intro t ht
  obtain ⟨frame, below, -, rfl⟩ := closeNode_eq_ok ht
  exact Iff.rfl

theorem Spoils.bind {f : State → Except Fault State} (hr : Spoils r)
    (hf : ∀ t, Ensures (f t) fun u => u.Clean → t.Clean) : Spoils (r >>= f) :=
  Ensures.bind hr fun t ht => (hf t).mono fun _ hu hclean => ht (hu hclean)

theorem ensures_clean_of_leafNode (s : State) (kind : Kind) :
    Ensures (do (← (s.openNode kind).bump).closeNode) fun t => t.Clean → s.Clean := by
  refine Ensures.bind (ensures_bump_significant (s.openNode kind)) fun t ht => ?_
  obtain ⟨-, -, -, -, hclean, -⟩ := ht
  refine (exact_closeNode t ⊤).mono fun u hu hclean' => ?_
  exact hclean.mp (hu.mpr ⟨hclean', trivial⟩).1

theorem spoils_claim (s : State) (position : Nat) (report : Except Fault Diagnostic) :
    Spoils (s.claim position report) := by
  intro t ht hclean
  obtain ⟨rfl, hclaimed⟩ | ⟨d, -, -, rfl⟩ := claim_eq_ok ht
  · rw [hclean.2] at hclaimed
    cases hclaimed
  · cases hclean.1

theorem ensures_same_claim (s : State) (position : Nat) (report : Except Fault Diagnostic) :
    Ensures (s.claim position report) fun t => t.rest = s.rest ∧ t.delimiters = s.delimiters := by
  intro t ht
  obtain ⟨rfl, -⟩ | ⟨d, -, -, rfl⟩ := claim_eq_ok ht
  · exact ⟨rfl, rfl⟩
  · exact ⟨rfl, rfl⟩

theorem spoils_report (s : State) (issue : Issue) (detail : String) : Spoils (s.report issue detail) :=
  spoils_claim s _ _

theorem not_parses_tok_mul (hk : s.current ≠ k) : ¬ s.Parses (lang (tok k) * P) := by
  intro h
  have hmem := h.current_mem ((starts_tok_self k).mul P)
  exact hk (List.mem_singleton.mp hmem)

theorem exact_expect (s : State) (P : Language Token) (k : Kind) (issue : Issue) (detail : String) :
    Exact (lang (tok k) * P) P s (s.expect k issue detail) := by
  unfold State.expect
  split
  · rename_i hlooks
    exact exact_bump (looksAt_iff.mp hlooks)
  · rename_i hlooks
    exact (spoils_report s issue detail).exact (not_parses_tok_mul fun hk => hlooks (looksAt_iff.mpr hk))

theorem exact_expectSemicolon (s : State) (P : Language Token) (detail : String) :
    Exact (lang (tok .semicolon) * P) P s (s.expectSemicolon detail) := by
  unfold State.expectSemicolon
  split
  · rename_i hlooks
    exact exact_bump (looksAt_iff.mp hlooks)
  · rename_i hlooks
    exact (spoils_claim s _ _).exact (not_parses_tok_mul fun hk => hlooks (looksAt_iff.mpr hk))

theorem exact_skipOne (hP : Avoids P [k]) (hk : k ≠ .error) :
    Exact ((1 + lang (tok k)) * P) P s (s.skipOne k) := by
  unfold State.skipOne
  split
  · rename_i hlooks
    have hcurrent := looksAt_iff.mp hlooks
    refine (exact_bump hcurrent).congr (parses_opt_pos hcurrent hP List.mem_cons_self ?_)
    exact fun h => hk (List.mem_singleton.mp h).symm
  · rename_i hlooks
    refine .ok (parses_opt_neg (starts_tok_self k) fun h => hlooks ?_)
    exact looksAt_iff.mpr (List.mem_singleton.mp h)

theorem exact_openDelimiter (s : State) (P : Language Token) (k : Kind) :
    Exact (lang (tok k) * P) P s (s.openDelimiter k) := by
  unfold State.openDelimiter State.requireCurrent
  split
  · rename_i hk
    exact exact_bump (s := { s with delimiters := ⟨k, s.currentSpan⟩ :: s.delimiters }) hk
  · exact .error

/-- Outside of all delimiters the partner would be optional. -/
theorem exact_closeDelimiter (P : Language Token) (hopen : s.delimiters ≠ []) (closer : Kind) (construct : String) :
    Exact (lang (tok closer) * P) P s (s.closeDelimiter closer construct) := by
  unfold State.closeDelimiter
  split
  · rename_i hnil
    exact absurd hnil hopen
  · rename_i d ds _
    dsimp only
    split
    · split
      · rename_i hlooks
        exact exact_bump (s := { s with delimiters := ds }) (looksAt_iff.mp hlooks)
      · rename_i hlooks
        exact (spoils_claim _ _ _).exact (not_parses_tok_mul fun hk => hlooks (looksAt_iff.mpr hk))
    · exact .error

theorem spoils_unterminatedString (s : State) : Spoils s.unterminatedString := by
  unfold State.unterminatedString
  exact (spoils_claim s _ _).bind fun t => ensures_clean_of_leafNode t .error

theorem spoils_stray (s : State) : Spoils (stray s) := by
  unfold stray
  refine (spoils_report s _ _).bind fun t => ?_
  split
  · exact .ok id
  · exact ensures_clean_of_leafNode t .error

end Operations

end Transducer.Parse
