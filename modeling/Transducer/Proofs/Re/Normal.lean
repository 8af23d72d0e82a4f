import Transducer.Proofs.CharClass.Runs
import Transducer.Proofs.Re.Scanning

/-!
# Canonical text is unambiguous

The normal form of an expression forgets how unions and concatenations associate, and it does not tell a class from
the union of its runs or a character from the literal of that character. A reader with a stack of open groups works
off lexemes and rebuilds the normal form, so that expressions with the same text have the same normal form. Classes
keep one thing to themselves: where a gap between their members is cut in two. Gaps are therefore merged first.
-/

namespace Transducer.Re

/-- Expressions up to associativity. -/
inductive Normal where
  | union (summands : List Normal)
  | concat (factors : List Normal)
  | bracket (bracket : Bracket) (lhs rhs : Normal)
  | kleene (operand : Normal) (quantifier : Quantifier)
  | output (input : Normal) (output : List CodePoint)
  | literal (cs : List CodePoint)
  | set (members : CharClass)
  | var (name : String)

namespace Normal

def summands : Normal → List Normal
  | .union ns => ns
  | n => [n]

def factors : Normal → List Normal
  | .concat ns => ns
  | n => [n]

def sum : List Normal → Normal
  | [n] => n
  | ns => .union ns

def product : List Normal → Normal
  | [n] => n
  | ns => .concat ns

/-- A run of one code point is a literal. -/
def ofRun (a : Alphabet) (low high : CodePoint) : Normal :=
  if low = high then .literal [low] else .set ⟨CharClass.intervalPoints a low high⟩

/-- A class with several runs is their union, and the class of one code point is a literal. -/
def ofClass (a : Alphabet) (k : CharClass) : Normal :=
  match k.memberRuns a with
  | [] => .set k
  | [r] => if r.low = r.high then .literal [r.low] else .set k
  | runs => .union (runs.map fun r => ofRun a r.low r.high)

end Normal

def normal (a : Alphabet) : Re → Normal
  | .union l r => .union ((normal a l).summands ++ (normal a r).summands)
  | .concat l r => .concat ((normal a l).factors ++ (normal a r).factors)
  | .compose l r => .bracket .compose (normal a l) (normal a r)
  | .diff l r => .bracket .subtract (normal a l) (normal a r)
  | .kleene operand q => .kleene (normal a operand) q
  | .output input cs => .output (normal a input) cs
  | .char c => .literal [c]
  | .set k => .ofClass a k
  | .str cs => .literal cs
  | .var name => .var name

/-! ### The reader -/

/-- A union in progress: its complete summands, the complete factors of the next one, and what was read last. -/
structure Frame where
  summands : List Normal
  factors : List Normal
  current : Normal

/-- What a closing lexeme goes back to. -/
inductive Opened where
  | group (outer : Frame)
  | left (bracket : Bracket) (outer : Frame)
  | right (bracket : Bracket) (outer : Frame) (lhs : Normal)

structure Reader where
  frame : Frame
  opened : List Opened

namespace Frame

/-- Nothing at all reads as the class without members. -/
def start (a : Alphabet) (summands factors : List Normal) : Frame := ⟨summands, factors, .set (.empty a)⟩

def product (f : Frame) : Normal := .product (f.factors ++ [f.current])

def total (f : Frame) : List Normal := f.summands ++ [f.product]

def value (f : Frame) : Normal := .sum f.total

end Frame

namespace Reader

def put (r : Reader) (n : Normal) : Reader := { r with frame.current := n }

def step (a : Alphabet) (r : Reader) : Lexeme → Option Reader
  | .parenOpen => some ⟨.start a [] [], .group r.frame :: r.opened⟩
  | .bracketOpen bracket => some ⟨.start a [] [], .left bracket r.frame :: r.opened⟩
  | .parenClose =>
      match r.opened with
      | .group outer :: opened => some (put ⟨outer, opened⟩ r.frame.value)
      | _ => none
  | .comma =>
      match r.opened with
      | .left bracket outer :: opened => some ⟨.start a [] [], .right bracket outer r.frame.value :: opened⟩
      | _ => none
  | .bracketClose =>
      match r.opened with
      | .right bracket outer lhs :: opened => some (put ⟨outer, opened⟩ (.bracket bracket lhs r.frame.value))
      | _ => none
  | .bar => some { r with frame := .start a r.frame.total [] }
  | .blank => some { r with frame := .start a r.frame.summands (r.frame.factors ++ [r.frame.current]) }
  | .marker q => some (r.put (.kleene r.frame.current q))
  | .output cs => some (r.put (.output r.frame.current cs))
  | .literal cs => some (r.put (.literal cs))
  | .run low high => some (r.put (.set ⟨CharClass.intervalPoints a low high⟩))
  | .name n => some (r.put (.var n))

def run (a : Alphabet) (r : Reader) (ls : List Lexeme) : Option Reader := ls.foldlM (step a) r

theorem run_append (a : Alphabet) (r : Reader) (ls ms : List Lexeme) :
    run a r (ls ++ ms) = (run a r ls).bind fun r => run a r ms := List.foldlM_append

theorem run_cons (a : Alphabet) (r : Reader) (l : Lexeme) (ls : List Lexeme) :
    run a r (l :: ls) = (step a r l).bind fun r => run a r ls := List.foldlM_cons

end Reader

/-- Reads all of an expression. -/
def read (a : Alphabet) (ls : List Lexeme) : Option Normal :=
  match Reader.run a ⟨.start a [] [], []⟩ ls with
  | some ⟨f, []⟩ => some f.value
  | _ => none

/-! ### What reading some lexemes adds to a frame -/

section Reading

variable {a : Alphabet} {ls ms : List Lexeme} {n : Normal} {ns ns' : List Normal}

def ReadsItem (a : Alphabet) (ls : List Lexeme) (n : Normal) : Prop :=
  ∀ summands factors opened, Reader.run a ⟨.start a summands factors, opened⟩ ls =
    some ⟨⟨summands, factors, n⟩, opened⟩

def ReadsProduct (a : Alphabet) (ls : List Lexeme) (ns : List Normal) : Prop :=
  ∀ summands factors opened, ∃ factors' n,
    Reader.run a ⟨.start a summands factors, opened⟩ ls = some ⟨⟨summands, factors', n⟩, opened⟩ ∧
      factors' ++ [n] = factors ++ ns

def ReadsSum (a : Alphabet) (ls : List Lexeme) (ns : List Normal) : Prop :=
  ∀ summands opened, ∃ f, Reader.run a ⟨.start a summands [], opened⟩ ls = some ⟨f, opened⟩ ∧
    f.total = summands ++ ns

theorem ReadsItem.product (h : ReadsItem a ls n) : ReadsProduct a ls [n] := by
  intro summands factors opened
  exact ⟨factors, n, h summands factors opened, rfl⟩

theorem ReadsProduct.sum (h : ReadsProduct a ls ns) : ReadsSum a ls [.product ns] := by
  intro summands opened
  obtain ⟨factors, n, hrun, hfactors⟩ := h summands [] opened
  refine ⟨_, hrun, ?_⟩
  rw [Frame.total, Frame.product, hfactors]
  rfl

theorem ReadsSum.bar (h : ReadsSum a ls ns) (h' : ReadsSum a ms ns') : ReadsSum a (ls ++ .bar :: ms) (ns ++ ns') := by
  intro summands opened
  obtain ⟨f, hrun, htotal⟩ := h summands opened
  obtain ⟨f', hrun', htotal'⟩ := h' f.total opened
  refine ⟨f', ?_, ?_⟩
  · rw [Reader.run_append, hrun, Option.bind_some, Reader.run_cons]
    exact hrun'
  · rw [htotal', htotal, List.append_assoc]

theorem ReadsProduct.blank (h : ReadsProduct a ls ns) (h' : ReadsProduct a ms ns') :
    ReadsProduct a (ls ++ .blank :: ms) (ns ++ ns') := by
  intro summands factors opened
  obtain ⟨done, n, hrun, hfactors⟩ := h summands factors opened
  obtain ⟨done', n', hrun', hfactors'⟩ := h' summands (done ++ [n]) opened
  refine ⟨done', n', ?_, ?_⟩
  · rw [Reader.run_append, hrun, Option.bind_some, Reader.run_cons]
    exact hrun'
  · rw [hfactors', hfactors, List.append_assoc]

/-- A group is closed with the value of the frame that it opened. -/
theorem ReadsSum.group (h : ReadsSum a ls ns) : ReadsItem a (.parenOpen :: ls ++ [.parenClose]) (.sum ns) := by
  intro summands factors opened
  obtain ⟨f, hrun, htotal⟩ := h [] (.group (.start a summands factors) :: opened)
  have hvalue : f.value = .sum ns := congrArg Normal.sum htotal
  rw [List.cons_append, Reader.run_cons, Reader.step, Option.bind_some, Reader.run_append, hrun, ← hvalue]
  rfl

theorem ReadsSum.bracket (h : ReadsSum a ls ns) (h' : ReadsSum a ms ns') (bracket : Bracket) :
    ReadsItem a (.bracketOpen bracket :: (ls ++ .comma :: (ms ++ [.bracketClose])))
      (.bracket bracket (.sum ns) (.sum ns')) := by
  intro summands factors opened
  obtain ⟨f, hrun, htotal⟩ := h [] (.left bracket (.start a summands factors) :: opened)
  have hvalue : f.value = .sum ns := congrArg Normal.sum htotal
  obtain ⟨f', hrun', htotal'⟩ := h' [] (.right bracket (.start a summands factors) f.value :: opened)
  have hvalue' : f'.value = .sum ns' := congrArg Normal.sum htotal'
  rw [Reader.run_cons, Reader.step, Option.bind_some, Reader.run_append, hrun, Option.bind_some, Reader.run_cons,
    Reader.step, Option.bind_some, Reader.run_append, hrun', ← hvalue, ← hvalue']
  rfl

theorem ReadsItem.marker (h : ReadsItem a ls n) (q : Quantifier) : ReadsItem a (ls ++ [.marker q]) (.kleene n q) := by
  intro summands factors opened
  rw [Reader.run_append, h]
  rfl

theorem ReadsItem.output (h : ReadsItem a ls n) (cs : List CodePoint) :
    ReadsItem a (ls ++ [.output cs]) (.output n cs) := by
  intro summands factors opened
  rw [Reader.run_append, h]
  rfl

theorem readsItem_ofRun (low high : CodePoint) : ReadsItem a [.ofRun low high] (.ofRun a low high) := by
  intro summands factors opened
  rw [Lexeme.ofRun, Normal.ofRun]
  split <;> rfl

theorem readsSum_runs {runs : List CharClass.Run} (hne : runs ≠ []) :
    ReadsSum a ((runs.map fun r => Lexeme.ofRun r.low r.high).intersperse .bar)
      (runs.map fun r => .ofRun a r.low r.high) := by
  induction runs with
  | nil => exact absurd rfl hne
  | cons r runs ih =>
      have hrun := (readsItem_ofRun (a := a) r.low r.high).product.sum
      cases runs with
      | nil => exact hrun
      | cons r' runs => exact hrun.bar (ih (List.cons_ne_nil r' runs))

end Reading

/-! ### Sums and products of normal forms -/

section Shape

variable {a : Alphabet}

theorem Normal.sum_append {ns ns' : List Normal} (h : ns ≠ []) (h' : ns' ≠ []) :
    sum (ns ++ ns') = .union (ns ++ ns') := by
  match ns, ns' with
  | [], _ => exact absurd rfl h
  | _ :: _, [] => exact absurd rfl h'
  | [_], _ :: _ => rfl
  | _ :: _ :: _, _ :: _ => rfl

theorem Normal.product_append {ns ns' : List Normal} (h : ns ≠ []) (h' : ns' ≠ []) :
    product (ns ++ ns') = .concat (ns ++ ns') := by
  match ns, ns' with
  | [], _ => exact absurd rfl h
  | _ :: _, [] => exact absurd rfl h'
  | [_], _ :: _ => rfl
  | _ :: _ :: _, _ :: _ => rfl

/-- The normal form of a class is a union of several runs, or neither a union nor a concatenation. -/
theorem ofClass_cases (a : Alphabet) (k : CharClass) :
    (∃ n n' ns, Normal.ofClass a k = .union (n :: n' :: ns)) ∨ (∃ cs, Normal.ofClass a k = .literal cs) ∨
      Normal.ofClass a k = .set k := by
  unfold Normal.ofClass
  match k.memberRuns a with
  | [] => exact .inr (.inr rfl)
  | [r] =>
      dsimp only
      split
      · exact .inr (.inl ⟨_, rfl⟩)
      · exact .inr (.inr rfl)
  | r :: r' :: runs => exact .inl ⟨_, _, _, rfl⟩

theorem summands_ne_nil (a : Alphabet) (re : Re) : (normal a re).summands ≠ [] := by
  induction re with
  | union l r ihl ihr =>
      intro hnil
      exact ihl (List.append_eq_nil_iff.mp hnil).1
  | set k =>
      rw [normal]
      obtain ⟨n, n', ns, hclass⟩ | ⟨cs, hclass⟩ | hclass := ofClass_cases a k
      all_goals
        rw [hclass]
        exact List.cons_ne_nil _ _
  | _ => exact List.cons_ne_nil _ _

theorem sum_summands (a : Alphabet) (re : Re) : Normal.sum (normal a re).summands = normal a re := by
  cases re with
  | union l r => exact Normal.sum_append (summands_ne_nil a l) (summands_ne_nil a r)
  | set k =>
      rw [normal]
      obtain ⟨n, n', ns, hclass⟩ | ⟨cs, hclass⟩ | hclass := ofClass_cases a k
      all_goals
        rw [hclass]
        rfl
  | _ => rfl

theorem factors_normal (a : Alphabet) (re : Re) :
    (∃ l r, re = .concat l r) ∨ (normal a re).factors = [normal a re] := by
  cases re with
  | concat l r => exact .inl ⟨l, r, rfl⟩
  | set k =>
      rw [normal]
      obtain ⟨n, n', ns, hclass⟩ | ⟨cs, hclass⟩ | hclass := ofClass_cases a k
      all_goals
        rw [hclass]
        exact .inr rfl
  | _ => exact .inr rfl

theorem factors_ne_nil (a : Alphabet) (re : Re) : (normal a re).factors ≠ [] := by
  induction re with
  | concat l r ihl ihr =>
      intro hnil
      exact ihl (List.append_eq_nil_iff.mp hnil).1
  | set k =>
      obtain ⟨l, r, hconcat⟩ | hfactors := factors_normal a (.set k)
      · cases hconcat
      · rw [hfactors]
        exact List.cons_ne_nil _ _
  | _ => exact List.cons_ne_nil _ _

theorem factors_of_loose {re : Re} (h : 3 < re.precedence) : (normal a re).factors = [normal a re] := by
  obtain ⟨l, r, rfl⟩ | hfactors := factors_normal a re
  · exact absurd h (Nat.lt_irrefl 3)
  · exact hfactors

end Shape

/-! ### Reading expressions back -/

/-- The lexemes of an expression are read as its normal form, wherever the expression may stand without
parentheses. -/
structure Reads (a : Alphabet) (re : Re) (ls : List Lexeme) (n : Normal) : Prop where
  sum : ReadsSum a ls n.summands
  product : re.precedence ≤ 3 → ReadsProduct a ls n.factors
  item : re.precedence ≤ 2 → ReadsItem a ls n

theorem ReadsItem.reads {a : Alphabet} {re : Re} {ls : List Lexeme} {n : Normal} (h : ReadsItem a ls n)
    (hsummands : n.summands = [n]) (hfactors : n.factors = [n]) : Reads a re ls n where
  sum := hsummands ▸ h.product.sum
  product _ := hfactors ▸ h.product
  item _ := h

theorem ReadsSum.reads {a : Alphabet} {re : Re} {ls : List Lexeme} {n : Normal} (h : ReadsSum a ls n.summands)
    (hloose : re.precedence = 4) : Reads a re ls n where
  sum := h
  product hle := by omega
  item hle := by omega

section Enclosed

variable {a : Alphabet} {re : Re} {ls : List Lexeme}

theorem precedence_le (re : Re) : re.precedence ≤ 4 := by
  cases re with
  | set k =>
      rw [precedence]
      split <;> omega
  | _ => simp [precedence]

theorem enclosed_of_lt {p : Nat} (h : p < re.precedence) :
    enclosed (some p) re ls = .parenOpen :: ls ++ [.parenClose] :=
  if_pos (decide_eq_true h)

theorem enclosed_of_le {p : Nat} (h : re.precedence ≤ p) : enclosed (some p) re ls = ls :=
  if_neg fun hlt => Nat.not_lt.mpr h (of_decide_eq_true hlt)

theorem Reads.inSum (h : Reads a re ls (normal a re)) :
    ReadsSum a (enclosed (some 4) re ls) (normal a re).summands := by
  rw [enclosed_of_le (precedence_le re)]
  exact h.sum

theorem Reads.group (h : Reads a re ls (normal a re)) :
    ReadsItem a (.parenOpen :: ls ++ [.parenClose]) (normal a re) := by
  have hgroup := h.sum.group
  rwa [sum_summands] at hgroup

theorem Reads.inProduct (h : Reads a re ls (normal a re)) :
    ReadsProduct a (enclosed (some 3) re ls) (normal a re).factors := by
  by_cases hloose : 3 < re.precedence
  · rw [enclosed_of_lt hloose, factors_of_loose hloose]
    exact h.group.product
  · rw [enclosed_of_le (Nat.not_lt.mp hloose)]
    exact h.product (Nat.not_lt.mp hloose)

theorem Reads.inItem (h : Reads a re ls (normal a re)) {p : Nat} (hp : p ≤ 2) :
    ReadsItem a (enclosed (some p) re ls) (normal a re) := by
  by_cases hloose : p < re.precedence
  · rw [enclosed_of_lt hloose]
    exact h.group
  · rw [enclosed_of_le (Nat.not_lt.mp hloose)]
    exact h.item (Nat.le_trans (Nat.not_lt.mp hloose) hp)

end Enclosed

/-- The classes are well-formed, and none of them cuts a gap in two. -/
def Tidy (a : Alphabet) : Re → Prop
  | .union l r | .concat l r | .compose l r | .diff l r => l.Tidy a ∧ r.Tidy a
  | .kleene operand _ => operand.Tidy a
  | .output input _ => input.Tidy a
  | .set k => CharClass.WellFormed a k ∧ CharClass.Gapless k.points
  | .var _ | .char _ | .str _ => True

theorem reads_set {a : Alphabet} {k : CharClass} (hwell : CharClass.WellFormed a k)
    (hgaps : CharClass.Gapless k.points) : Reads a (.set k) (setLexemes a k) (.ofClass a k) := by
  have hlength := hwell.length_memberRuns
  -- With at most one run the class has to be recovered from its text, which gaps that are cut in two would prevent.
  match hruns : k.memberRuns a with
  | [] =>
      have hpoints : k = .empty a := congrArg CharClass.mk (CharClass.points_of_memberless hwell.ending hgaps hruns)
      have hclass : Normal.ofClass a k = .set (.empty a) := by rw [Normal.ofClass, hruns, hpoints]
      have hitem : ReadsItem a [] (.set (.empty a)) := fun _ _ _ => rfl
      rw [setLexemes, hruns, hclass]
      exact hitem.reads rfl rfl
  | [r] =>
      have hpoints : k = ⟨CharClass.intervalPoints a r.low r.high⟩ :=
        congrArg CharClass.mk (CharClass.points_of_single_run hwell hgaps hruns)
      have hclass : Normal.ofClass a k = .ofRun a r.low r.high := by
        rw [Normal.ofClass, hruns, Normal.ofRun, ← hpoints]
      rw [setLexemes, hruns, hclass]
      refine (readsItem_ofRun r.low r.high).reads ?_ ?_
      all_goals
        rw [Normal.ofRun]
        split <;> rfl
  | r :: r' :: runs =>
      have hloose : precedence (.set k) = 4 := by
        rw [hruns, List.length_cons, List.length_cons] at hlength
        have hcount : 1 < k.memberRunCount := by omega
        exact if_pos hcount
      have hclass : Normal.ofClass a k = .union ((r :: r' :: runs).map fun r => .ofRun a r.low r.high) := by
        rw [Normal.ofClass, hruns]
      rw [setLexemes, hruns, hclass]
      exact ReadsSum.reads (readsSum_runs (List.cons_ne_nil r _)) hloose

/-- The lexemes of an expression are read back as its normal form. -/
theorem reads_lexemes {a : Alphabet} {re : Re} (h : re.Tidy a) : Reads a re (lexemes a re) (normal a re) := by
  induction re with
  | union l r ihl ihr =>
      obtain ⟨hl, hr⟩ := h
      exact ReadsSum.reads ((ihl hl).inSum.bar (ihr hr).inSum) rfl
  | concat l r ihl ihr =>
      obtain ⟨hl, hr⟩ := h
      have hproduct := (ihl hl).inProduct.blank (ihr hr).inProduct
      have hsum := hproduct.sum
      rw [Normal.product_append (factors_ne_nil a l) (factors_ne_nil a r)] at hsum
      have hlevel : precedence (.concat l r) = 3 := rfl
      exact ⟨hsum, fun _ => hproduct, fun hle => by omega⟩
  | compose l r ihl ihr | diff l r ihl ihr =>
      obtain ⟨hl, hr⟩ := h
      have hitem := (ihl hl).sum.bracket (ihr hr).sum
      rw [sum_summands, sum_summands] at hitem
      exact (hitem _).reads rfl rfl
  | kleene operand q ih => exact (((ih h).inItem (by decide)).marker q).reads rfl rfl
  | output input cs ih => exact (((ih h).inItem (by decide)).output cs).reads rfl rfl
  | set k => exact reads_set h.1 h.2
  | char c =>
      have hitem : ReadsItem a [.literal [c]] (.literal [c]) := fun _ _ _ => rfl
      exact hitem.reads rfl rfl
  | str cs =>
      have hitem : ReadsItem a [.literal cs] (.literal cs) := fun _ _ _ => rfl
      exact hitem.reads rfl rfl
  | var name =>
      have hitem : ReadsItem a [.name name] (.var name) := fun _ _ _ => rfl
      exact hitem.reads rfl rfl

theorem read_lexemes {a : Alphabet} {re : Re} (h : re.Tidy a) : read a (lexemes a re) = some (normal a re) := by
  obtain ⟨f, hrun, htotal⟩ := (reads_lexemes h).sum [] []
  rw [read, hrun]
  dsimp only
  rw [Frame.value, htotal, List.nil_append, sum_summands]

/-! ### Gaps -/

/-- The expression with the gaps of all its classes merged. -/
def joined : Re → Re
  | .union l r => .union l.joined r.joined
  | .concat l r => .concat l.joined r.joined
  | .compose l r => .compose l.joined r.joined
  | .diff l r => .diff l.joined r.joined
  | .kleene operand q => .kleene operand.joined q
  | .output input cs => .output input.joined cs
  | .char c => .char c
  | .set k => .set k.joined
  | .str cs => .str cs
  | .var name => .var name

section Joined

variable {a : Alphabet} {re : Re}

theorem tidy_joined (h : re.Legible a) : re.joined.Tidy a := by
  induction re with
  | union l r ihl ihr | concat l r ihl ihr | compose l r ihl ihr | diff l r ihl ihr => exact ⟨ihl h.1, ihr h.2⟩
  | kleene operand q ih => exact ih h
  | output input cs ih => exact ih h
  | set k => exact ⟨CharClass.WellFormed.joined h, CharClass.gapless_mergeGaps k.points⟩
  | char _ | str _ | var _ => trivial

theorem precedence_joined (h : re.Legible a) : re.joined.precedence = re.precedence := by
  cases re with
  | set k =>
      have hcount : k.joined.memberRunCount = k.memberRunCount := by
        rw [← CharClass.WellFormed.length_memberRuns h, ← (CharClass.WellFormed.joined h).length_memberRuns,
          CharClass.WellFormed.memberRuns_joined h]
      rw [joined, precedence, precedence, hcount]
  | _ => rfl

theorem lexemes_joined (h : re.Legible a) : lexemes a re.joined = lexemes a re := by
  have henclosed {re : Re} (hre : re.Legible a) (p : Option Nat) (ls : List Lexeme) :
      enclosed p re.joined ls = enclosed p re ls := by
    rw [enclosed, enclosed, precedence_joined hre]
  induction re with
  | union l r ihl ihr | concat l r ihl ihr =>
      simp only [joined, lexemes, ihl h.1, ihr h.2, henclosed h.1, henclosed h.2]
  | compose l r ihl ihr | diff l r ihl ihr => simp only [joined, lexemes, ihl h.1, ihr h.2]
  | kleene operand q ih | output operand cs ih =>
      have hoperand : operand.Legible a := h
      simp only [joined, lexemes, ih hoperand, henclosed hoperand]
  | set k =>
      simp only [joined, lexemes, setLexemes]
      rw [CharClass.WellFormed.memberRuns_joined h]
  | char _ | str _ | var _ => rfl

end Joined

/-! ### Texts -/

/-- Canonical text is unambiguous. Expressions with the same text have the same normal form, as soon as the gaps in
their classes are merged. -/
theorem normal_of_write {a : Alphabet} {re re' : Re} (h : re.Legible a) (h' : re'.Legible a)
    (hwrite : (write a re Table.empty).1 = (write a re' Table.empty).1) :
    re.joined.normal a = re'.joined.normal a := by
  have hread := read_lexemes (tidy_joined h)
  rw [lexemes_joined h, lexemes_of_write h h' hwrite, ← lexemes_joined h', read_lexemes (tidy_joined h')] at hread
  exact (Option.some.inj hread).symm

/-- A class of two runs next to a name, and a union of the two runs that associates the other way and cuts gaps. -/
theorem normal_of_write_of_runs :
    let a : Alphabet := ⟨0, 9⟩
    let k : CharClass := ⟨[⟨1, false⟩, ⟨3, true⟩, ⟨5, false⟩, ⟨7, true⟩, ⟨9, false⟩]⟩
    let low : CharClass := ⟨[⟨0, false⟩, ⟨1, false⟩, ⟨3, true⟩, ⟨9, false⟩]⟩
    let high : CharClass := ⟨[⟨5, false⟩, ⟨7, true⟩, ⟨8, false⟩, ⟨9, false⟩]⟩
    let re : Re := .union (.set k) (.var "x")
    let re' : Re := .union (.set low) (.union (.set high) (.var "x"))
    (write a re Table.empty).1 = (write a re' Table.empty).1 ∧ re.joined.normal a = re'.joined.normal a := by
  intro a k low high re re'
  have hname : IsName "x" := ⟨'x', [], by decide, by decide, fun _ hd => nomatch hd⟩
  have hk : CharClass.WellFormed a k := ⟨by decide, by decide, rfl⟩
  have hlow : CharClass.WellFormed a low := ⟨by decide, by decide, rfl⟩
  have hhigh : CharClass.WellFormed a high := ⟨by decide, by decide, rfl⟩
  have hwrite : (write a re Table.empty).1 = (write a re' Table.empty).1 := by
    rw [write_eq, write_eq]
    rfl
  exact ⟨hwrite, normal_of_write ⟨hk, hname⟩ ⟨hlow, hhigh, hname⟩ hwrite⟩

/-- Gaps leave no trace in the text: two classes without members that differ in where their gap is cut. -/
theorem write_forgets_gaps :
    let a := Alphabet.unicode
    let k : CharClass := ⟨[⟨0x10FFFF, false⟩]⟩
    let l : CharClass := ⟨[⟨96, false⟩, ⟨0x10FFFF, false⟩]⟩
    Legible a (.set k) ∧ Legible a (.set l) ∧
      (write a (.set k) Table.empty).1 = (write a (.set l) Table.empty).1 ∧
      normal a (.set k) ≠ normal a (.set l) := by
  intro a k l
  refine ⟨⟨by decide, by decide, rfl⟩, ⟨by decide, by decide, rfl⟩, ?_, ?_⟩
  · rw [write_eq, write_eq]
    rfl
  · intro heq
    have hlength : k.points.length = l.points.length := congrArg (fun m => m.points.length) (Normal.set.inj heq)
    exact absurd hlength (by decide)

end Transducer.Re
