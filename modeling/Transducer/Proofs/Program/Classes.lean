import Transducer.Proofs.CharClass.Extensionality
import Transducer.Proofs.CharClass.Runs
import Transducer.Proofs.Program.Totality
import Transducer.Proofs.Re.Lexemes

/-!
# The classes of a program are canonical

A class comes into a program only when two values meet that have a class, and it then is a combination of their classes.
These are combinations again, or classes of a single code point of the alphabet. Values are copied from one definition
into another, and classes end up inside of bigger values, but nothing is ever done to a class that would not leave it
canonical. A condition that is passed on in this way from the operands to the value holds throughout the table; this is
shown once for any such condition.

In a canonical class a gap lies between two member runs. So the runs that are printed for a class ascend, and no two of
them could be printed as one.
-/

namespace Transducer

/-! ### Runs of canonical classes -/

namespace CharClass

variable {a : Alphabet} {low : CodePoint} {points : List Breakpoint}

/-- The runs ascend, and some code point lies between any two of them. -/
def Apart (runs : List Run) : Prop := runs.Pairwise fun r s => r.high + 1 < s.low

namespace Canonical

theorem ending (h : Canonical low a.max points) : Ending a points := ⟨h.ascending, h.ends⟩

theorem bounds_of_mem_runs (h : Canonical low a.max points) {r : Run} (hr : r ∈ memberRunsFrom a low points) :
    low ≤ r.low ∧ r.low ≤ r.high ∧ r.high ≤ a.max := by
  induction points generalizing low with
  | nil => exact absurd rfl h.ending.ne_nil
  | cons p ps ih =>
      have hlow : low ≤ p.point := h.above p List.mem_cons_self
      have hown (hr : r ∈ ownRun low p) : low ≤ r.low ∧ r.low ≤ r.high ∧ r.high ≤ a.max := by
        unfold ownRun at hr
        split at hr
        · rw [List.mem_singleton.mp hr]
          exact ⟨Nat.le_refl low, hlow, h.point_le⟩
        · cases hr
      cases ps with
      | nil =>
          rw [memberRunsFrom_single h.ending] at hr
          exact hown hr
      | cons q ps =>
          rw [memberRunsFrom_cons h.ending] at hr
          obtain hr | hr := List.mem_append.mp hr
          · exact hown hr
          · obtain ⟨hbehind, hbounds⟩ := ih h.tail hr
            exact ⟨Nat.le_trans (Nat.le_succ_of_le hlow) hbehind, hbounds⟩

/-- If the first entry is a gap, all member runs lie behind it. -/
theorem behind_gap {p : Breakpoint} {ps : List Breakpoint} (h : Canonical low a.max (p :: ps)) (hp : p.member = false)
    {r : Run} (hr : r ∈ memberRunsFrom a low (p :: ps)) : p.point < r.low := by
  cases ps with
  | nil =>
      rw [memberRunsFrom_single h.ending, ownRun, hp] at hr
      cases hr
  | cons q ps =>
      rw [memberRunsFrom_cons h.ending, ownRun, hp] at hr
      exact (h.tail.bounds_of_mem_runs hr).1

theorem apart (h : Canonical low a.max points) : Apart (memberRunsFrom a low points) := by
  induction points generalizing low with
  | nil => exact absurd rfl h.ending.ne_nil
  | cons p ps ih =>
      have hown : Apart (ownRun low p) := by
        unfold ownRun
        split
        · exact List.pairwise_singleton _ _
        · exact .nil
      cases ps with
      | nil =>
          rw [memberRunsFrom_single h.ending]
          exact hown
      | cons q ps =>
          rw [memberRunsFrom_cons h.ending]
          refine List.pairwise_append.mpr ⟨hown, ih h.tail, fun r hr s hs => ?_⟩
          unfold ownRun at hr
          split at hr
          · rename_i hp
            have hdiffers : p.member ≠ q.member := (List.isChain_cons_cons.mp (alternates_iff.mp h.alternates)).1
            have hq : q.member = false := by
              rw [hp] at hdiffers
              exact Bool.eq_false_iff.mpr hdiffers.symm
            have hpq : p.point < q.point := List.rel_of_pairwise_cons h.ascending List.mem_cons_self
            rw [List.mem_singleton.mp hr]
            exact Nat.lt_of_le_of_lt hpq (h.tail.behind_gap hq hs)
          · cases hr

end Canonical

end CharClass

/-! ### Conditions on values -/

namespace Builder

/-- A condition that a value has if its operands have it. Combinations of classes and the classes of single characters
are up to the condition. -/
structure Hereditary (a : Alphabet) (p : Re → Prop) : Prop where
  literal {re : Re} (h : re.isStrLike = true) : p re
  var (name : String) : p (.var name)
  concat {l r : Re} (hl : p l) (hr : p r) : p (.concat l r)
  kleene {re : Re} (h : p re) (q : Quantifier) : p (.kleene re q)
  output {re : Re} (h : p re) (cs : List CodePoint) : p (.output re cs)
  combine (op : ChainOp) {l r : Re} (hl : p l) (hr : p r) : Ensures (combine a op l r) p

/-- All values of the table satisfy the condition. -/
def Bears (p : Re → Prop) (b : Builder) : Prop := ∀ e ∈ b.table.entries, p e.2

/-- The same of the table and of a value beside it. -/
structure Yields (p : Re → Prop) (value : Option Re) (b : Builder) : Prop where
  bears : b.Bears p
  value : ∀ re ∈ value, p re

variable {a : Alphabet} {p : Re → Prop} {b : Builder}

theorem Bears.insert (h : b.Bears p) (name : String) {re : Re} (hre : p re) :
    Bears p { b with table := b.table.insert name re } := by
  intro e he
  obtain rfl | he := Table.mem_entries_insert he
  · exact hre
  · exact h e he

theorem Bears.yields_none (h : b.Bears p) : Yields p none b := ⟨h, fun _ hre => nomatch hre⟩

theorem Bears.yields {re : Re} (h : b.Bears p) (hre : p re) : Yields p (some re) b :=
  ⟨h, fun _ hmem => Option.mem_some.mp hmem ▸ hre⟩

theorem Yields.endDefinition {value : Option Re} (h : Yields p value b) (name : String) :
    Ensures (b.endDefinition name value) (Bears p) := by
  unfold Builder.endDefinition
  split
  · cases value with
    | none => exact .ok h.bears
    | some re => exact .ok (h.bears.insert name (h.value re rfl))
  · exact .error

namespace Hereditary

theorem join (hp : Hereditary a p) {l r : Re} (hl : p l) (hr : p r) : p (l.join r) := by
  unfold Re.join
  split
  · exact hp.literal (by rw [Re.isStrLike_eq, Re.asStr?_literal]; rfl)
  · exact hp.concat hl hr

theorem fold (hp : Hereditary a p) {res : List Re} (h : ∀ re ∈ res, p re) : ∀ re ∈ Folder.fold res, p re := by
  cases res with
  | nil => exact fun _ hre => nomatch hre
  | cons first res =>
      obtain ⟨hfirst, hres⟩ := List.forall_mem_cons.mp h
      rw [Folder.fold_cons]
      rintro re ⟨⟩
      clear h
      induction res generalizing first with
      | nil => exact hfirst
      | cons next res ih =>
          obtain ⟨hnext, hres⟩ := List.forall_mem_cons.mp hres
          exact ih (first.join next) (hp.join hfirst hnext) hres

theorem copies (hp : Hereditary a p) {re : Re} (h : p re) (m n : Nat) : ∀ re' ∈ copies re m n, p re' := by
  refine hp.fold fun re' hre' => ?_
  obtain hre' | hre' := List.mem_append.mp hre'
  · rw [List.eq_of_mem_replicate hre']
    exact h
  · rw [List.eq_of_mem_replicate hre']
    exact hp.kleene h _

theorem foldChain (hp : Hereditary a p) {res : List Re} (h : ∀ re ∈ res, p re) (op : ChainOp) :
    Ensures (foldChain a op res) fun value => ∀ re ∈ value, p re := by
  cases res with
  | nil => exact .ok fun _ hre => nomatch hre
  | cons first res =>
      obtain ⟨hfirst, hres⟩ := List.forall_mem_cons.mp h
      have hfold : Ensures (res.foldlM (Builder.combine a op) first) p := by
        clear h
        induction res generalizing first with
        | nil => exact .ok hfirst
        | cons next res ih =>
            obtain ⟨hnext, hres⟩ := List.forall_mem_cons.mp hres
            exact (hp.combine op hfirst hnext).bind fun re hre => ih re hre hres
      exact hfold.map fun re hre => fun re' hre' => Option.mem_some.mp hre' ▸ hre

theorem of_allPresent {values : List (Option Re)} {res : List Re} (hvalues : ∀ value ∈ values, ∀ re ∈ value, p re)
    (h : allPresent values = some res) : ∀ re ∈ res, p re := by
  intro re hre
  refine hvalues (some re) ?_ re rfl
  rw [eq_map_some_of_allPresent h]
  exact List.mem_map_of_mem hre

theorem chainValue (hp : Hereditary a p) {values : List (Option Re)} (hvalues : ∀ value ∈ values, ∀ re ∈ value, p re)
    (op : ChainOp) (operators : Nat) : Ensures (chainValue a op operators values) fun value => ∀ re ∈ value, p re := by
  unfold Builder.chainValue
  split
  · exact .ok fun _ hre => nomatch hre
  · split
    · exact .ok fun _ hre => nomatch hre
    · rename_i res hres
      exact hp.foldChain (of_allPresent hvalues hres) op

theorem withQuantifier (hp : Hereditary a p) (marker : Option String) {value : Option Re} (h : ∀ re ∈ value, p re) :
    ∀ re ∈ withQuantifier marker value, p re := by
  unfold Builder.withQuantifier
  split
  · intro re hre
    obtain ⟨operand, hoperand, rfl⟩ := Option.map_eq_some_iff.mp hre
    exact hp.kleene (h operand hoperand) _
  · exact h

theorem reference (hp : Hereditary a p) (hb : b.Bears p) (span : Span) (name : String) :
    Yields p (some (b.reference span name).1) (b.reference span name).2 := by
  unfold Builder.reference
  split
  · rename_i re hget
    split
    · exact hb.yields (hb _ (Table.mem_entries_of_get? hget))
    · exact hb.yields (hp.var name)
  · exact Bears.yields hb (hp.var name)

theorem literalValue (hp : Hereditary a p) (hb : b.Bears p) (content : Option (String × Nat)) :
    Ensures (b.literal content) fun r => Yields p r.1 r.2 := by
  unfold Builder.literal
  split
  · exact .ok (hb.yields (hp.literal rfl))
  · split
    · exact .ok (hb.yields (hp.literal (by rw [Re.isStrLike_eq, Re.asStr?_literal]; rfl)))
    · exact .after fun _ => .ok (Bears.yields_none hb)

theorem withOutput (hp : Hereditary a p) (hb : b.Bears p) (span : Span) {input : Option Re} (output : Option Re)
    (hinput : ∀ re ∈ input, p re) : Yields p (b.withOutput span input output).1 (b.withOutput span input output).2 := by
  unfold Builder.withOutput
  split
  · rename_i input output
    split
    · exact hb.yields (hp.output (hinput input rfl) _)
    · exact Bears.yields hb (hp.var _)
  · exact hb.yields_none

theorem repeated (hp : Hereditary a p) {value : Option Re} (h : Yields p value b) (m n : Nat) :
    Yields p (repeated m n value b).1 (repeated m n value b).2 := by
  unfold Builder.repeated
  cases value with
  | none => exact h
  | some re =>
      have hre := h.value re rfl
      dsimp only
      split
      · exact ⟨h.bears, hp.copies hre m n⟩
      · unfold hoist
        cases hcurrent : b.current with
        | none => exact h.bears.yields_none
        | some definition => exact ⟨h.bears.insert _ hre, hp.copies (hp.var _) m n⟩

mutual

theorem build (hp : Hereditary a p) (e : Expr) (b : Builder) (hb : b.Bears p) :
    Ensures (build a e b) fun r => Yields p r.1 r.2 := by
  cases e with
  | missing => exact .ok hb.yields_none
  | chain span op operators operands =>
      refine (hp.buildAll operands b hb).bind fun r hr => ?_
      exact (hp.chainValue hr.2 op operators).bind fun value hvalue => .ok ⟨hr.1, hvalue⟩
  | concat span operands =>
      refine (hp.buildAll operands b hb).bind fun r hr => .ok ⟨hr.1, fun re hre => ?_⟩
      obtain ⟨res, hres, hfold⟩ := Option.bind_eq_some_iff.mp hre
      exact hp.fold (of_allPresent hr.2 hres) re hfold
  | output span lhs rhs =>
      refine (hp.build lhs b hb).bind fun r hr => (hp.build rhs r.2 hr.bears).bind fun r' hr' => .ok ?_
      exact hp.withOutput hr'.bears rhs.span r'.1 hr.value
  | weight span operand value => exact .ok (Bears.yields hb (hp.var _))
  | repetition span operand isRange lower upper =>
      simp only [Builder.build]
      split
      · exact .ok hb.yields_none
      · split
        · exact .ok (hb.yields (hp.literal rfl))
        · exact (hp.build operand b hb).bind fun r hr => .ok (hp.repeated hr _ _)
  | closure span operand marker =>
      refine (hp.build operand b hb).bind fun r hr => .ok ⟨hr.bears, ?_⟩
      exact hp.withQuantifier marker hr.value
  | reference span name =>
      cases name with
      | none => exact .ok hb.yields_none
      | some name => exact .ok (hp.reference hb span name)
  | literal span content => exact hp.literalValue hb content
  | group span inner => exact hp.build inner b hb
  | call span name arguments => exact .ok (Bears.yields hb (hp.var _))

theorem buildAll (hp : Hereditary a p) (es : List Expr) (b : Builder) (hb : b.Bears p) :
    Ensures (buildAll a es b) fun r => r.2.Bears p ∧ ∀ value ∈ r.1, ∀ re ∈ value, p re := by
  cases es with
  | nil => exact .ok ⟨hb, fun _ hvalue => nomatch hvalue⟩
  | cons e es =>
      refine (hp.build e b hb).bind fun r hr => (hp.buildAll es r.2 hr.bears).bind fun r' hr' => .ok ⟨hr'.1, ?_⟩
      exact List.forall_mem_cons.mpr ⟨hr.value, hr'.2⟩

end

theorem define (hp : Hereditary a p) (hb : b.Bears p) (name : String) (body : Expr) :
    Ensures (define a name body b) (Bears p) := by
  have hbegin : Ensures (b.beginDefinition name) (Bears p) := by
    unfold beginDefinition
    split
    · exact .error
    · exact .ok hb
  exact hbegin.bind fun b₁ hb₁ => (hp.build body b₁ hb₁).bind fun r hr => hr.endDefinition name

theorem visit (hp : Hereditary a p) (hb : b.Bears p) (stmt : Stmt) : Ensures (visit a b stmt) (Bears p) := by
  cases stmt with
  | definition span exported name body =>
      cases name with
      | none => exact .ok hb
      | some name => exact hp.define hb name body
  | importing span path renamed => exact .ok hb
  | function span name params body => exact .ok hb
  | returning span body => exact .ok hb

/-- The condition holds of all values that statements are built into. -/
theorem run (hp : Hereditary a p) (stmts : List Stmt) : Ensures (run a stmts) (Bears p) := by
  have hvisits (b : Builder) (hb : b.Bears p) : Ensures (stmts.foldlM (Builder.visit a) b) (Bears p) := by
    induction stmts generalizing b with
    | nil => exact .ok hb
    | cons stmt stmts ih => exact (hp.visit hb stmt).bind fun b' hb' => ih b' hb'
  exact hvisits start fun _ he => nomatch he

end Hereditary

end Builder

/-! ### Classes inside of values -/

namespace Re

/-- The classes that occur in an expression, from left to right. -/
def classes : Re → List CharClass
  | .union l r | .concat l r | .compose l r | .diff l r => l.classes ++ r.classes
  | .kleene operand _ => operand.classes
  | .output input _ => input.classes
  | .set k => [k]
  | .char _ | .str _ | .var _ => []

/-- The classes that occur in an expression are canonical. -/
def Canonical (a : Alphabet) (re : Re) : Prop := ∀ k ∈ re.classes, CharClass.Represents a k k.contains

theorem canonical_set {a : Alphabet} {k : CharClass} {p : CodePoint → Bool} (h : CharClass.Represents a k p) :
    (set k).Canonical a :=
  List.forall_mem_singleton.mpr ⟨h.wellFormed, h.canonical, fun _ _ => rfl⟩

/-- The class of a value that occurs in the table, or of a character. -/
theorem asSet_returns {a : Alphabet} {re : Re} (h : re.Canonical a) :
    Returns (re.asSet a) fun value => ∀ k ∈ value, CharClass.Represents a k k.contains := by
  cases re with
  | set k => exact .ok fun k' hk => Option.mem_some.mp hk ▸ h k List.mem_cons_self
  | char c =>
      rw [asSet]
      split
      · rename_i hc
        have hinside : (CharClass.Piece.singleton c).Inside a := hc
        obtain ⟨k, hk, hrep⟩ := CharClass.Piece.represents hinside
        have hsingleton : CharClass.singleton a c = .ok k := hk
        rw [hsingleton]
        exact .ok fun k' hk' => Option.mem_some.mp hk' ▸ ⟨hrep.wellFormed, hrep.canonical, fun _ _ => rfl⟩
      · exact .ok fun k hk => absurd hk (Option.not_mem_none k)
  | _ => exact .ok fun k hk => absurd hk (Option.not_mem_none k)

end Re

namespace Builder

variable {a : Alphabet} {l r : Re}

theorem represents_setOf {re : Re} (h : re.Canonical a) :
    Ensures (setOf a re) fun value => ∀ k ∈ value, CharClass.Represents a k k.contains := by
  obtain ⟨value, hvalue, hrep⟩ := Re.asSet_returns h
  rw [setOf, hvalue]
  exact .ok hrep

/-- Two values fold to a canonical class, or they become operands. -/
theorem canonical_foldSets (f : Bool → Bool → Bool) (hl : l.Canonical a) (hr : r.Canonical a) {node : Re → Re → Re}
    (hnode : (node l r).classes = l.classes ++ r.classes) :
    Ensures (foldSets a (CharClass.combine a f) node l r) (Re.Canonical a) := by
  have hnone : (node l r).Canonical a := by
    rw [Re.Canonical, hnode]
    exact List.forall_mem_append.mpr ⟨hl, hr⟩
  unfold foldSets setPair
  rw [bind_assoc]
  refine (represents_setOf hl).bind fun left hleft => ?_
  cases left with
  | none => exact .ok hnone
  | some k =>
      rw [bind_assoc]
      refine (represents_setOf hr).bind fun right hright => ?_
      cases right with
      | none => exact .ok hnone
      | some m =>
          obtain ⟨folded, hfolded, hrep⟩ := (hleft k rfl).combine (hright m rfl) f
          have hcombine : CharClass.combine a f k m = .ok folded := hfolded
          simp only [Option.map_some, pure_bind, hcombine]
          exact .ok (Re.canonical_set hrep)

theorem hereditary_canonical (a : Alphabet) : Hereditary a (Re.Canonical a) where
  literal {re} h := by
    cases re with
    | str cs => exact fun _ hk => nomatch hk
    | char c => exact fun _ hk => nomatch hk
    | _ => cases h
  var name := fun _ hk => nomatch hk
  concat hl hr := List.forall_mem_append.mpr ⟨hl, hr⟩
  kleene h q := h
  output h cs := h
  combine op l r hl hr := by
    cases op with
    | union => exact canonical_foldSets _ hl hr rfl
    | diff => exact canonical_foldSets _ hl hr rfl
    | compose => exact .ok (List.forall_mem_append.mpr ⟨hl, hr⟩)

end Builder

theorem canonical_of_compile {options : Options} {source : String} {c : Compilation}
    (h : compile options source = .ok c) : ∀ e ∈ c.program.table.entries, e.2.Canonical c.program.alphabet := by
  obtain ⟨p, built, -, hbuilt, rfl⟩ := compile_eq_ok h
  exact (Builder.hereditary_canonical options.alphabet).run _ built hbuilt

/-! ### The definitions that are classes -/

namespace Program

/-- A definition in the listing, if it is a class or a character of the alphabet. -/
def listed? (a : Alphabet) (e : String × Re) : Option (String × CharClass) :=
  (e.2.asSet a).toOption.join.map fun k => (e.1, k)

theorem listed?_eq_some_iff {a : Alphabet} {e : String × Re} {name : String} {k : CharClass} :
    listed? a e = some (name, k) ↔ e.1 = name ∧ e.2.asSet a = .ok (some k) := by
  unfold listed?
  cases e.2.asSet a with
  | error err => simp [Except.toOption]
  | ok value => cases value <;> simp [Except.toOption]

theorem sets_eq {p : Program} (h : ∀ e ∈ p.table.entries, e.2.Canonical p.alphabet) :
    p.sets = .ok (p.table.entries.filterMap (listed? p.alphabet)) := by
  have hfound (entries : List (String × Re)) (hentries : ∀ e ∈ entries, e.2.Canonical p.alphabet) :
      entries.mapM (fun e => do return (← e.2.asSet p.alphabet).map fun k => (e.1, k)) =
        .ok (entries.map (listed? p.alphabet)) := by
    induction entries with
    | nil => rfl
    | cons e entries ih =>
        obtain ⟨he, hrest⟩ := List.forall_mem_cons.mp hentries
        obtain ⟨value, hvalue, -⟩ := Re.asSet_returns he
        rw [List.mapM_cons, ih hrest, List.map_cons, listed?, hvalue]
        rfl
  rw [sets, hfound _ h]
  exact congrArg Except.ok List.filterMap_map

end Program

/-- The classes of a compiled program are listed without a failure. A definition is listed if it is a class, or a
character of the alphabet, and all that is listed is canonical. -/
theorem sets_returns {options : Options} {source : String} {c : Compilation} (h : compile options source = .ok c) :
    Returns c.program.sets fun found =>
      (∀ e ∈ found, CharClass.Represents c.program.alphabet e.2 e.2.contains) ∧
        ∀ name k, (name, k) ∈ found ↔
          ∃ re, (name, re) ∈ c.program.table.entries ∧ re.asSet c.program.alphabet = .ok (some k) := by
  have hcanonical := canonical_of_compile h
  refine ⟨_, Program.sets_eq hcanonical, fun e he => ?_, fun name k => ?_⟩
  · obtain ⟨entry, hentry, hlisted⟩ := List.mem_filterMap.mp he
    obtain ⟨-, hset⟩ := Program.listed?_eq_some_iff.mp hlisted
    exact (Re.asSet_returns (hcanonical entry hentry)).of_eq_ok hset e.2 rfl
  · rw [List.mem_filterMap]
    constructor
    · rintro ⟨⟨_, re⟩, hentry, hlisted⟩
      obtain ⟨rfl, hset⟩ := Program.listed?_eq_some_iff.mp hlisted
      exact ⟨re, hentry, hset⟩
    · rintro ⟨re, hentry, hset⟩
      exact ⟨(name, re), hentry, Program.listed?_eq_some_iff.mpr ⟨rfl, hset⟩⟩

/-- Every class in a program is canonical, whatever errors its source has and whatever the bounds of the alphabet are:
its breakpoints ascend inside of the alphabet up to the maximum, and the flag changes from each one to the next. It is
written as its member runs, joined by bars. There are as many of these as the class counts, and it binds like a union
if there is more than one, and else like a leaf. They lie in the alphabet, they ascend, and a code point lies between
any two of them. -/
theorem program_classes_canonical {options : Options} {source : String} {c : Compilation}
    (hcompile : compile options source = .ok c) {name : String} {re : Re} (he : (name, re) ∈ c.program.table.entries)
    {k : CharClass} (hk : k ∈ re.classes) :
    let a := options.alphabet
    let runs := k.memberRuns a
    k.points.Pairwise (fun p q => p.point < q.point) ∧
      (∀ p ∈ k.points, a.min ≤ p.point ∧ p.point ≤ a.max) ∧
      k.points.getLast?.map Breakpoint.point = some a.max ∧
      k.points.IsChain (fun p q => p.member ≠ q.member) ∧
      (∀ u, Re.write a (.set k) u = ("|".intercalate (runs.map fun r => Literal.runText r.low r.high), u)) ∧
      k.memberRunCount = runs.length ∧
      (Re.set k).precedence = (if 1 < runs.length then 4 else 0) ∧
      (∀ r ∈ runs, a.min ≤ r.low ∧ r.low ≤ r.high ∧ r.high ≤ a.max) ∧
      runs.Pairwise fun r s => r.high + 1 < s.low := by
  intro a runs
  obtain ⟨p, built, -, hbuilt, rfl⟩ := compile_eq_ok hcompile
  have hrep := (Builder.hereditary_canonical a).run _ built hbuilt (name, re) he k hk
  have hcanonical := hrep.canonical_points
  have hcount : k.memberRunCount = runs.length := hrep.wellFormed.length_memberRuns.symm
  refine ⟨hcanonical.ascending, fun q hq => ⟨hcanonical.above q hq, ?_⟩, hcanonical.ends,
    CharClass.alternates_iff.mp hcanonical.alternates, fun u => ?_, hcount, ?_,
    fun r hr => hcanonical.bounds_of_mem_runs hr, hcanonical.apart⟩
  · exact hcanonical.ascending.le_lastPoint hcanonical.ends q hq
  · obtain ⟨htext, hcounts⟩ := Re.trace_runs u runs
    rw [Re.write_eq, Re.lexemes, Re.setLexemes, htext, hcounts]
  · rw [Re.precedence, hcount]

/-- A class inside of a concatenation, in a program over six letters with an undefined name. -/
theorem program_classes_canonical_within_concatenation :
    let a : Alphabet := ⟨97, 102⟩
    let k : CharClass := ⟨[⟨97, false⟩, ⟨98, true⟩, ⟨101, false⟩, ⟨102, true⟩]⟩
    ∃ c re, compile ⟨.none, a⟩ "x = 'b'|'c'|'f'; y = (x - 'c') 'z'* q;" = .ok c ∧ c.diagnostics.length = 1 ∧
      ("y", re) ∈ c.program.table.entries ∧ k ∈ re.classes ∧ k.memberRuns a = [⟨98, 98, true⟩, ⟨102, 102, true⟩] ∧
      (Re.set k).precedence = 4 ∧ (k.memberRuns a).Pairwise fun r s => r.high + 1 < s.low := by
  intro a k
  have hcompiles : ((compile ⟨.none, a⟩ "x = 'b'|'c'|'f'; y = (x - 'c') 'z'* q;").toOption.map fun c =>
      (c.diagnostics.length, c.program.table.entries)) =
        some (1, [("x", .set ⟨[⟨97, false⟩, ⟨99, true⟩, ⟨101, false⟩, ⟨102, true⟩]⟩),
          ("y", .concat (.concat (.set k) (.kleene (.char 122) .zeroOrMore)) (.var "q"))]) := by
    decide +kernel
  obtain ⟨c, hcompile, hseen⟩ := eq_ok_of_toOption hcompiles
  obtain ⟨hlength, hentries⟩ := Prod.mk.inj hseen
  have he : ("y", .concat (.concat (.set k) (.kleene (.char 122) .zeroOrMore)) (.var "q")) ∈
      c.program.table.entries := by
    rw [hentries]
    exact List.mem_cons_of_mem _ List.mem_cons_self
  have hruns : k.memberRuns a = [⟨98, 98, true⟩, ⟨102, 102, true⟩] := by decide
  obtain ⟨-, -, -, -, -, -, hprecedence, -, hapart⟩ := program_classes_canonical hcompile he List.mem_cons_self
  rw [hruns] at hprecedence
  exact ⟨c, _, hcompile, hlength, he, List.mem_cons_self, hruns, hprecedence, hapart⟩

end Transducer
