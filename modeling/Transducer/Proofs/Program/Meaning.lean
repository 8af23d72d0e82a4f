import Mathlib.Algebra.FreeMonoid.Basic
import Mathlib.Algebra.Group.Pointwise.Set.Lattice
import Mathlib.Algebra.Group.Pointwise.Set.ListOfFn
import Transducer.Program.Builder

/-!
# Relations of expressions

An expression denotes a relation between texts: what it reads and what it writes. The relations are given twice, for
the syntax of a source and for the values that definitions are bound to. Both meanings depend on an environment, which
gives every name a relation. A source is modelled by an environment if every name denotes the meaning of its
definition, and a table is solved by one if every name denotes the meaning of the value it is bound to.
-/

namespace Transducer

open scoped Pointwise

/-- Pairs of a text that is read and a text that is written. The pairs of a product are joined on both sides. -/
abbrev Transduction := Set (FreeMonoid CodePoint × FreeMonoid CodePoint)

namespace Transduction

/-- A text is read and nothing is written. -/
def literal (cs : List CodePoint) : Transduction := {(FreeMonoid.ofList cs, 1)}

/-- What the first one writes is read by the second one. -/
def compose (l r : Transduction) : Transduction := {p | ∃ v, (p.1, v) ∈ l ∧ (v, p.2) ∈ r}

/-- What the second one reads is written behind what the first one writes. -/
def output (l r : Transduction) : Transduction := {p | ∃ v w, (p.1, v) ∈ l ∧ (w, 1) ∈ r ∧ p.2 = v * w}

def closure (x : Transduction) : Quantifier → Transduction
  | .zeroOrMore => ⋃ k : ℕ, x ^ k
  | .oneOrMore => ⋃ k : ℕ, x ^ (k + 1)
  | .zeroOrOne => 1 ∪ x

/-- Between `m` and `n` times. If that is never, or if the bounds are in the wrong order, only the empty text is left. -/
def repeated (x : Transduction) (m n : ℕ) : Transduction :=
  if n = 0 ∨ n < m then 1 else ⋃ k ∈ Set.Icc m n, x ^ k

def chained : ChainOp → Transduction → Transduction → Transduction
  | .compose, l, r => l.compose r
  | .union, l, r => l ∪ r
  | .diff, l, r => l \ r

/-- A chain groups to the left. -/
def chain (op : ChainOp) : List Transduction → Transduction
  | [] => ∅
  | x :: xs => xs.foldl (chained op) x

end Transduction

abbrev Env := String → Transduction

/-- The relation of a value. A class reads any one of its members that the alphabet has. -/
def Re.meaning (a : Alphabet) (env : Env) : Re → Transduction
  | .union l r => l.meaning a env ∪ r.meaning a env
  | .concat l r => l.meaning a env * r.meaning a env
  | .compose l r => (l.meaning a env).compose (r.meaning a env)
  | .diff l r => l.meaning a env \ r.meaning a env
  | .kleene x q => (x.meaning a env).closure q
  | .output x cs => (x.meaning a env).output (.literal cs)
  | .char c => .literal [c]
  | .set k => {p | ∃ c, a.holds c = true ∧ k.contains c = true ∧ p = (FreeMonoid.of c, 1)}
  | .str cs => .literal cs
  | .var name => env name

namespace Expr

mutual

/-- The relation of an expression. What is broken or not supported has none. -/
def meaning (env : Env) : Expr → Transduction
  | .missing => ∅
  | .chain _ op _ operands => .chain op (meanings env operands)
  | .concat _ operands => (meanings env operands).prod
  | .output _ lhs rhs => (lhs.meaning env).output (rhs.meaning env)
  | .weight _ _ _ => ∅
  | .repetition _ operand isRange lower upper =>
      match Builder.repetitionBounds isRange lower upper with
      | none => ∅
      | some (m, n) => (operand.meaning env).repeated m n
  | .closure _ operand marker =>
      match marker.bind Quantifier.ofMarker? with
      | none => ∅
      | some q => (operand.meaning env).closure q
  | .reference _ name => name.elim ∅ env
  | .literal _ none => .literal []
  | .literal _ (some (raw, _)) =>
      match Literal.unescape raw with
      | .ok cs => .literal cs
      | .error _ => ∅
  | .group _ inner => inner.meaning env
  | .call _ _ _ => ∅

def meanings (env : Env) : List Expr → List Transduction
  | [] => []
  | e :: es => e.meaning env :: meanings env es

end

mutual

/-- The names that the meaning depends on. A repetition that is never tried does not look at its operand. -/
def references : Expr → List String
  | .missing => []
  | .chain _ _ _ operands => referencesOf operands
  | .concat _ operands => referencesOf operands
  | .output _ lhs rhs => lhs.references ++ rhs.references
  | .weight _ _ _ => []
  | .repetition _ operand isRange lower upper =>
      match Builder.repetitionBounds isRange lower upper with
      | none => []
      | some (m, n) => if n = 0 ∨ n < m then [] else operand.references
  | .closure _ operand _ => operand.references
  | .reference _ name => name.toList
  | .literal _ _ => []
  | .group _ inner => inner.references
  | .call _ _ _ => []

def referencesOf : List Expr → List String
  | [] => []
  | e :: es => e.references ++ referencesOf es

end

end Expr

/-- Every name of the table denotes the meaning of its value. -/
def Table.Solves (a : Alphabet) (t : Table Re) (env : Env) : Prop :=
  ∀ name re, t.get? name = some re → env name = re.meaning a env

namespace Stmt

/-- The name and the body of a definition. -/
def binding? : Stmt → Option (String × Expr)
  | .definition _ _ (some name) body => some (name, body)
  | _ => none

/-- All definitions that have a name. -/
def bindings (stmts : List Stmt) : List (String × Expr) := stmts.filterMap binding?

theorem bindings_cons (stmt : Stmt) (stmts : List Stmt) :
    bindings (stmt :: stmts) = bindings [stmt] ++ bindings stmts :=
  List.filterMap_append (l := [stmt])

end Stmt

/-- Every name denotes the meaning of its definition. -/
def Models (definitions : List (String × Expr)) (env : Env) : Prop :=
  ∀ d ∈ definitions, env d.1 = d.2.meaning env

/-! ### Names -/

namespace Re

theorem referencesBefore_eq (re : Re) (after : List String) : re.referencesBefore after = re.references ++ after := by
  have hpair {l r : Re} {after : List String} (hl : ∀ after, l.referencesBefore after = l.references ++ after)
      (hr : ∀ after, r.referencesBefore after = r.references ++ after) :
      l.referencesBefore (r.referencesBefore after) = l.referencesBefore (r.referencesBefore []) ++ after := by
    rw [hl (r.referencesBefore after), hl (r.referencesBefore []), hr after, List.append_assoc]
    rfl
  induction re generalizing after with
  | union l r ihl ihr => exact hpair ihl ihr
  | concat l r ihl ihr => exact hpair ihl ihr
  | compose l r ihl ihr => exact hpair ihl ihr
  | diff l r ihl ihr => exact hpair ihl ihr
  | kleene operand q ih => exact ih after
  | output input cs ih => exact ih after
  | char c => rfl
  | set k => rfl
  | str cs => rfl
  | var name => rfl

theorem references_append (l r : Re) : referencesBefore l (referencesBefore r []) = l.references ++ r.references := by
  rw [referencesBefore_eq, ← references]

@[simp] theorem references_union (l r : Re) : (union l r).references = l.references ++ r.references :=
  references_append l r

@[simp] theorem references_concat (l r : Re) : (concat l r).references = l.references ++ r.references :=
  references_append l r

@[simp] theorem references_compose (l r : Re) : (compose l r).references = l.references ++ r.references :=
  references_append l r

@[simp] theorem references_diff (l r : Re) : (diff l r).references = l.references ++ r.references :=
  references_append l r

@[simp] theorem references_kleene (x : Re) (q : Quantifier) : (kleene x q).references = x.references := rfl

@[simp] theorem references_output (x : Re) (cs : List CodePoint) : (output x cs).references = x.references := rfl

@[simp] theorem references_var (name : String) : (var name).references = [name] := rfl

variable {a : Alphabet} {env env' : Env}

/-- A value means the same in environments that agree on the names it refers to. -/
theorem meaning_congr {re : Re} (h : ∀ name ∈ re.references, env name = env' name) :
    re.meaning a env = re.meaning a env' := by
  induction re with
  | union l r ihl ihr =>
      simp only [references_union, List.forall_mem_append] at h
      rw [meaning, meaning, ihl h.1, ihr h.2]
  | concat l r ihl ihr =>
      simp only [references_concat, List.forall_mem_append] at h
      rw [meaning, meaning, ihl h.1, ihr h.2]
  | compose l r ihl ihr =>
      simp only [references_compose, List.forall_mem_append] at h
      rw [meaning, meaning, ihl h.1, ihr h.2]
  | diff l r ihl ihr =>
      simp only [references_diff, List.forall_mem_append] at h
      rw [meaning, meaning, ihl h.1, ihr h.2]
  | kleene x q ih => rw [meaning, meaning, ih h]
  | output x cs ih => rw [meaning, meaning, ih h]
  | char c => rfl
  | set k => rfl
  | str cs => rfl
  | var name => exact h name List.mem_cons_self

end Re

namespace Expr

variable {env env' : Env}

theorem meanings_eq_map (env : Env) (es : List Expr) :
    meanings env es = (es.map fun e env => e.meaning env).map fun f => f env := by
  induction es with
  | nil => rfl
  | cons e es ih => rw [meanings, ih, List.map_cons, List.map_cons]

mutual

theorem meaning_congr (e : Expr) (h : ∀ name ∈ e.references, env name = env' name) :
    e.meaning env = e.meaning env' := by
  cases e with
  | missing => rfl
  | chain span op operators operands => rw [meaning, meaning, meanings_congr operands h]
  | concat span operands => rw [meaning, meaning, meanings_congr operands h]
  | output span lhs rhs =>
      simp only [references, List.forall_mem_append] at h
      rw [meaning, meaning, lhs.meaning_congr h.1, rhs.meaning_congr h.2]
  | weight span operand value => rfl
  | repetition span operand isRange lower upper =>
      simp only [meaning, references] at h ⊢
      split
      · rfl
      · rename_i m n hbounds
        simp only [hbounds] at h
        unfold Transduction.repeated
        split
        · rfl
        · rename_i htried
          rw [if_neg htried] at h
          rw [operand.meaning_congr h]
  | closure span operand marker =>
      simp only [meaning]
      rw [operand.meaning_congr h]
  | reference span name =>
      cases name with
      | none => rfl
      | some name => exact h name List.mem_cons_self
  | literal span content =>
      cases content with
      | none => rfl
      | some content => rfl
  | group span inner => exact inner.meaning_congr h
  | call span name arguments => rfl

theorem meanings_congr (es : List Expr) (h : ∀ name ∈ referencesOf es, env name = env' name) :
    meanings env es = meanings env' es := by
  cases es with
  | nil => rfl
  | cons e es =>
      simp only [referencesOf, List.forall_mem_append] at h
      rw [meanings, meanings, e.meaning_congr h.1, meanings_congr es h.2]

end

end Expr

end Transducer
