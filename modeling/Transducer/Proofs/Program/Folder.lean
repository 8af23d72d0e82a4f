import Transducer.Program.Folder

/-!
# Folding is joining from the left

The folder gathers a leading run of literals and joins it at once. What comes out is the same as joining every
neighbour with what was folded before it, which is the form that proofs use.
-/

namespace Transducer

namespace Re

theorem isStrLike_eq (re : Re) : re.isStrLike = re.asStr?.isSome := by
  cases re <;> rfl

@[simp]
theorem asStr?_literal (cs : List CodePoint) : (literal cs).asStr? = some cs := by
  unfold literal
  split
  · rfl
  · rfl

theorem join_of_asStr? {l r : Re} {cs ds : List CodePoint} (hl : l.asStr? = some cs) (hr : r.asStr? = some ds) :
    join l r = literal (cs ++ ds) := by
  rw [join, hl, hr]

theorem join_of_none_left {l : Re} (r : Re) (hl : l.asStr? = none) : join l r = concat l r := by
  rw [join, hl]

theorem join_of_none_right (l : Re) {r : Re} (hr : r.asStr? = none) : join l r = concat l r := by
  rw [join, hr]
  split
  · rename_i h
    cases h
  · rfl

theorem join_of_not_isStrLike {l r : Re} (h : (l.isStrLike && r.isStrLike) = false) : join l r = concat l r := by
  rw [Bool.and_eq_false_iff, isStrLike_eq, isStrLike_eq, Option.isSome_eq_false_iff, Option.isSome_eq_false_iff,
    Option.isNone_iff_eq_none, Option.isNone_iff_eq_none] at h
  rcases h with hl | hr
  · exact join_of_none_left r hl
  · exact join_of_none_right l hr

end Re

namespace Folder

/-- The folder holds the join `re` of at least one expression: as a run of literals, or folded into something that
is no literal. -/
inductive Holds (re : Re) : Folder → Prop where
  | single {r : Re} (hr : r.isStrLike = true) (h : re = r) : Holds re ⟨none, [r]⟩
  | run {r s : Re} {leading : List Re} (hrun : ∀ t ∈ r :: s :: leading, t.isStrLike = true)
      (h : re = .literal ((r :: s :: leading).reverse.flatMap fun re => re.asStr?.getD [])) :
      Holds re ⟨none, r :: s :: leading⟩
  | folded (h : re.asStr? = none) : Holds re ⟨some re, []⟩

variable {f : Folder} {re : Re}

theorem Holds.finish (h : Holds re f) : f.finish = some re := by
  cases h with
  | single _ h => rw [h]; rfl
  | run _ h => rw [h]; rfl
  | folded _ => rfl

theorem Holds.isNone_folded (h : Holds re f) : f.folded.isNone = re.isStrLike := by
  cases h with
  | single hr h => rw [h, hr]; rfl
  | run _ h => rw [h, Re.isStrLike_eq, Re.asStr?_literal]; rfl
  | folded h => rw [Re.isStrLike_eq, h]; rfl

theorem Holds.push_literal (h : Holds re f) {next : Re} (hre : re.isStrLike = true) (hnext : next.isStrLike = true) :
    Holds (re.join next) { f with leading := next :: f.leading } := by
  rw [Re.isStrLike_eq] at hre
  obtain ⟨cs, hcs⟩ := Option.isSome_iff_exists.mp hre
  have hsome := hnext
  rw [Re.isStrLike_eq] at hsome
  obtain ⟨ds, hds⟩ := Option.isSome_iff_exists.mp hsome
  rw [Re.join_of_asStr? hcs hds]
  cases h with
  | single hr h =>
      subst h
      refine .run (List.forall_mem_cons.mpr ⟨hnext, List.forall_mem_singleton.mpr hr⟩) ?_
      simp [hcs, hds]
  | run hrun h =>
      subst h
      rw [Re.asStr?_literal] at hcs
      refine .run (List.forall_mem_cons.mpr ⟨hnext, hrun⟩) ?_
      rw [List.reverse_cons, List.flatMap_append, Option.some.inj hcs]
      simp [hds]
  | folded h =>
      rw [h] at hcs
      cases hcs

theorem Holds.push (h : Holds re f) (next : Re) : Holds (re.join next) (f.push next) := by
  unfold Folder.push
  split
  · rename_i hboth
    rw [Bool.and_eq_true, h.isNone_folded] at hboth
    exact h.push_literal hboth.1 hboth.2
  · rename_i hboth
    rw [h.isNone_folded, Bool.not_eq_true] at hboth
    rw [h.finish, append, Re.join_of_not_isStrLike hboth]
    exact .folded rfl

theorem holds_singleton (re : Re) : Holds re (empty.push re) := by
  unfold Folder.push
  split
  · rename_i hlike
    exact .single hlike rfl
  · rename_i hlike
    refine .folded ?_
    rw [Re.isStrLike_eq, Bool.and_eq_true, Classical.not_and_iff_not_or_not, Option.not_isSome_iff_eq_none] at hlike
    obtain hfalse | hnone := hlike
    · exact absurd rfl hfalse
    · exact hnone

theorem fold_cons (re : Re) (res : List Re) : fold (re :: res) = some (res.foldl Re.join re) := by
  have hholds (f : Folder) (hf : Holds re f) : Holds (res.foldl Re.join re) (res.foldl Folder.push f) := by
    induction res generalizing re f with
    | nil => exact hf
    | cons next res ih => exact ih _ _ (hf.push next)
  exact (hholds _ (holds_singleton re)).finish

/-- Gathering a run of literals is as good as joining neighbours. Expressions that are pushed one after the other come
out as each of them joined with all that is in front of it, and nothing comes out if there are none. Two literals join
into the literal of all their code points, which is a character if it is one code point. Anything else stays side by
side. -/
theorem folder_joins_pairwise :
    (([] : List Re).foldl push empty).finish = none ∧
      (∀ re res, ((re :: res).foldl push empty).finish = some (res.foldl Re.join re)) ∧
      (∀ l r : Re, ∀ cs ds, l.asStr? = some cs → r.asStr? = some ds →
        l.join r = .literal (cs ++ ds) ∧ ∀ c, cs ++ ds = [c] → l.join r = .char c) ∧
      ∀ l r : Re, (l.isStrLike && r.isStrLike) = false → l.join r = .concat l r := by
  refine ⟨rfl, fold_cons, fun l r cs ds hl hr => ?_, fun l r => Re.join_of_not_isStrLike⟩
  have hjoin := Re.join_of_asStr? hl hr
  refine ⟨hjoin, fun c hc => ?_⟩
  rw [hjoin, hc]
  rfl

end Folder

end Transducer
