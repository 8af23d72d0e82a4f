import Mathlib.Data.List.Chain
import Transducer.CharClass.Runs
import Transducer.Proofs.CharClass.Algebra

/-!
# The runs of well-formed classes

Every entry of a well-formed class has a run of its own, so the member entries are as many as the member runs. Only
the gaps leave no trace in the member runs: neighbouring entries that are no members can be merged. Once they are,
a class with at most one member run is determined by that run.
-/

namespace Transducer.CharClass

variable {a : Alphabet} {points : List Breakpoint}

/-- The entries ascend up to the alphabet's maximum. -/
structure Ending (a : Alphabet) (points : List Breakpoint) : Prop where
  ascending : Ascending points
  ends : lastPoint points = some a.max

theorem WellFormed.ending {k : CharClass} (h : WellFormed a k) : Ending a k.points := ⟨h.ascending, h.ends⟩

namespace Ending

theorem tail {p q : Breakpoint} {ps : List Breakpoint} (h : Ending a (p :: q :: ps)) : Ending a (q :: ps) :=
  ⟨h.ascending.of_cons, h.ends⟩

theorem point_lt {p q : Breakpoint} {ps : List Breakpoint} (h : Ending a (p :: q :: ps)) : p.point < a.max :=
  Nat.lt_of_lt_of_le (List.rel_of_pairwise_cons h.ascending List.mem_cons_self)
    (h.tail.ascending.le_lastPoint h.tail.ends q List.mem_cons_self)

theorem point_eq {p : Breakpoint} (h : Ending a [p]) : p.point = a.max := Option.some.inj h.ends

theorem ne_nil (h : Ending a points) : points ≠ [] := by
  rintro rfl
  exact nomatch h.ends

end Ending

theorem alternates_iff :
    isCanonical.alternates points = true ↔ points.IsChain fun p q => p.member ≠ q.member := by
  induction points with
  | nil => exact ⟨fun _ => .nil, fun _ => rfl⟩
  | cons p ps ih =>
      cases ps with
      | nil => exact ⟨fun _ => .singleton p, fun _ => rfl⟩
      | cons q ps => rw [isCanonical.alternates, Bool.and_eq_true, bne_iff_ne, ih, List.isChain_cons_cons]

/-! ### One run for every entry -/

/-- The member runs of some entries, the first of which starts at `low`. -/
def memberRunsFrom (a : Alphabet) (low : CodePoint) (points : List Breakpoint) : List Run :=
  (runsFrom a low points).filter fun r => r.member

theorem memberRuns_eq (a : Alphabet) (k : CharClass) : k.memberRuns a = memberRunsFrom a a.min k.points := rfl

/-- The runs of a single entry. -/
def ownRun (low : CodePoint) (p : Breakpoint) : List Run := if p.member then [⟨low, p.point, true⟩] else []

theorem memberRunsFrom_single {p : Breakpoint} (h : Ending a [p]) (low : CodePoint) :
    memberRunsFrom a low [p] = ownRun low p := by
  have hlast : ¬ p.point < a.max := Nat.not_lt.mpr (Nat.le_of_eq h.point_eq.symm)
  rw [memberRunsFrom, runsFrom, if_neg hlast, ownRun]
  cases p.member <;> rfl

theorem memberRunsFrom_cons {p q : Breakpoint} {ps : List Breakpoint} (h : Ending a (p :: q :: ps)) (low : CodePoint) :
    memberRunsFrom a low (p :: q :: ps) = ownRun low p ++ memberRunsFrom a (p.point + 1) (q :: ps) := by
  rw [memberRunsFrom, runsFrom, if_pos h.point_lt, ownRun, memberRunsFrom]
  cases hp : p.member with
  | false => rw [List.filter_cons_of_neg (Bool.eq_false_iff.mp rfl)]; rfl
  | true => rw [List.filter_cons_of_pos rfl]; rfl

theorem length_memberRunsFrom (h : Ending a points) (low : CodePoint) :
    (memberRunsFrom a low points).length = points.countP fun p => p.member := by
  induction points generalizing low with
  | nil => exact absurd rfl h.ne_nil
  | cons p ps ih =>
      have hown : (ownRun low p).length = if p.member then 1 else 0 := by
        unfold ownRun
        split <;> rfl
      cases ps with
      | nil => rw [memberRunsFrom_single h, hown, List.countP_singleton]
      | cons q ps =>
          rw [memberRunsFrom_cons h, List.length_append, hown, ih h.tail, Nat.add_comm, ← List.countP_cons]

/-- The member entries of a well-formed class are as many as its member runs. -/
theorem WellFormed.length_memberRuns {k : CharClass} (h : WellFormed a k) :
    (k.memberRuns a).length = k.memberRunCount := length_memberRunsFrom h.ending a.min

/-! ### Gaps -/

/-- Keeps the last of every stretch of entries that are no members. -/
def mergeGaps : List Breakpoint → List Breakpoint
  | p :: q :: rest => if p.member || q.member then p :: mergeGaps (q :: rest) else mergeGaps (q :: rest)
  | points => points

/-- No two neighbours are both no members. -/
def Gapless (points : List Breakpoint) : Prop := points.IsChain fun p q => p.member = true ∨ q.member = true

theorem mergeGaps_sublist (points : List Breakpoint) : (mergeGaps points).Sublist points := by
  fun_induction mergeGaps points with
  | case1 p q rest _ ih => exact ih.cons_cons p
  | case2 p q rest _ ih => exact ih.cons p
  | case3 points => exact List.Sublist.refl points

/-- The first entry is kept, or it is no member and neither is the one that takes its place. -/
theorem exists_mergeGaps_cons (p : Breakpoint) (ps : List Breakpoint) :
    ∃ q qs, mergeGaps (p :: ps) = q :: qs ∧ q.member = p.member := by
  induction ps generalizing p with
  | nil => exact ⟨p, [], rfl, rfl⟩
  | cons r ps ih =>
      rw [mergeGaps]
      split
      · exact ⟨p, _, rfl, rfl⟩
      · rename_i hgap
        obtain ⟨hp, hr⟩ := Bool.or_eq_false_iff.mp (Bool.eq_false_iff.mpr hgap)
        obtain ⟨q, qs, hmerge, hmember⟩ := ih r
        exact ⟨q, qs, hmerge, hmember.trans (hr.trans hp.symm)⟩

theorem gapless_mergeGaps (points : List Breakpoint) : Gapless (mergeGaps points) := by
  fun_induction mergeGaps points with
  | case1 p q rest hmember ih =>
      obtain ⟨r, rs, hmerge, hr⟩ := exists_mergeGaps_cons q rest
      rw [hmerge] at ih ⊢
      refine List.isChain_cons_cons.mpr ⟨?_, ih⟩
      rw [hr]
      exact Bool.or_eq_true_iff.mp hmember
  | case2 p q rest _ ih => exact ih
  | case3 points hshort =>
      cases points with
      | nil => exact .nil
      | cons p ps =>
          cases ps with
          | nil => exact .singleton p
          | cons q rest => exact absurd rfl (hshort p q rest)

theorem lastPoint_mergeGaps (points : List Breakpoint) : lastPoint (mergeGaps points) = lastPoint points := by
  fun_induction mergeGaps points with
  | case1 p q rest _ ih =>
      cases hlast : lastPoint (q :: rest) with
      | none => cases rest <;> cases hlast
      | some m => rw [lastPoint_cons_cons, hlast, lastPoint_cons (ih.trans hlast)]
  | case2 p q rest _ ih => rw [ih, lastPoint_cons_cons]
  | case3 points => rfl

theorem Ending.mergeGaps (h : Ending a points) : Ending a (mergeGaps points) :=
  ⟨h.ascending.sublist (mergeGaps_sublist points), (lastPoint_mergeGaps points).trans h.ends⟩

theorem memberRunsFrom_gap {p : Breakpoint} {ps : List Breakpoint} (hp : p.member = false) (low low' : CodePoint) :
    memberRunsFrom a low (p :: ps) = memberRunsFrom a low' (p :: ps) := by
  rw [memberRunsFrom, memberRunsFrom, runsFrom, runsFrom, hp]
  rfl

theorem memberRunsFrom_mergeGaps (h : Ending a points) (low : CodePoint) :
    memberRunsFrom a low (mergeGaps points) = memberRunsFrom a low points := by
  fun_induction CharClass.mergeGaps points generalizing low with
  | case1 p q rest _ ih =>
      obtain ⟨r, rs, hmerge, -⟩ := exists_mergeGaps_cons q rest
      have hending : Ending a (p :: r :: rs) := by
        constructor
        · have hsub := (mergeGaps_sublist (q :: rest)).cons_cons p
          rw [hmerge] at hsub
          exact h.ascending.sublist hsub
        · rw [lastPoint_cons_cons, ← hmerge]
          exact h.tail.mergeGaps.ends
      rw [hmerge, memberRunsFrom_cons hending, ← hmerge, ih h.tail, memberRunsFrom_cons h]
  | case2 p q rest hgap ih =>
      obtain ⟨hp, hq⟩ := Bool.or_eq_false_iff.mp (Bool.eq_false_iff.mpr hgap)
      rw [ih h.tail, memberRunsFrom_cons h, ownRun, hp, memberRunsFrom_gap hq low]
      rfl
  | case3 points => rfl

/-- The class with its gaps merged. -/
def joined (k : CharClass) : CharClass := ⟨CharClass.mergeGaps k.points⟩

namespace WellFormed

variable {k : CharClass}

theorem joined (h : WellFormed a k) : WellFormed a k.joined :=
  ⟨h.ending.mergeGaps.ascending, fun p hp => h.above p ((mergeGaps_sublist k.points).mem hp), h.ending.mergeGaps.ends⟩

theorem memberRuns_joined (h : WellFormed a k) : k.joined.memberRuns a = k.memberRuns a :=
  memberRunsFrom_mergeGaps h.ending a.min

end WellFormed

/-! ### Classes with at most one member run -/

theorem points_of_memberless (h : Ending a points) (hgaps : Gapless points) {low : CodePoint}
    (hruns : memberRunsFrom a low points = []) : points = [⟨a.max, false⟩] := by
  cases points with
  | nil => exact absurd rfl h.ne_nil
  | cons p ps =>
      have hcount := length_memberRunsFrom h low
      rw [hruns, List.length_nil, eq_comm, List.countP_eq_zero] at hcount
      have hmember : ∀ q ∈ p :: ps, q.member = false := fun q hq => Bool.eq_false_iff.mpr (hcount q hq)
      cases ps with
      | nil =>
          have hp := hmember p List.mem_cons_self
          rw [← h.point_eq, ← hp]
      | cons q ps =>
          obtain hp | hq := (List.isChain_cons_cons.mp hgaps).1
          · rw [hmember p List.mem_cons_self] at hp
            cases hp
          · rw [hmember q (List.mem_cons_of_mem _ List.mem_cons_self)] at hq
            cases hq

/-- What stands behind a member entry without further members. -/
theorem points_behind_member {p : Breakpoint} {ps : List Breakpoint} (h : Ending a (p :: ps))
    (hgaps : Gapless (p :: ps)) (hp : p.member = true) {low : CodePoint} {r : Run}
    (hruns : memberRunsFrom a low (p :: ps) = [r]) :
    r.low = low ∧ p :: ps = ⟨r.high, true⟩ :: if r.high < a.max then [⟨a.max, false⟩] else [] := by
  cases ps with
  | nil =>
      rw [memberRunsFrom_single h, ownRun, if_pos hp, List.singleton_inj] at hruns
      subst hruns
      rw [if_neg (Nat.not_lt.mpr (Nat.le_of_eq h.point_eq.symm)), ← hp]
      exact ⟨rfl, rfl⟩
  | cons q ps =>
      rw [memberRunsFrom_cons h, ownRun, if_pos hp, List.singleton_append, List.cons.injEq] at hruns
      obtain ⟨rfl, hrest⟩ := hruns
      rw [if_pos h.point_lt, points_of_memberless h.tail (List.isChain_cons_cons.mp hgaps).2 hrest, ← hp]
      exact ⟨rfl, rfl⟩

/-- With one member run there is at most one gap on either side of it. -/
theorem points_of_single_run {k : CharClass} (h : WellFormed a k) (hgaps : Gapless k.points) {r : Run}
    (hruns : k.memberRuns a = [r]) : k.points = intervalPoints a r.low r.high := by
  obtain ⟨points⟩ := k
  rw [memberRuns_eq] at hruns
  have hending := h.ending
  dsimp only at hruns hgaps hending ⊢
  cases points with
  | nil => exact absurd rfl hending.ne_nil
  | cons p ps =>
      cases hp : p.member with
      | true =>
          obtain ⟨hlow, hpoints⟩ := points_behind_member hending hgaps hp hruns
          rw [intervalPoints, hlow, if_neg (Nat.lt_irrefl a.min), hpoints]
          rfl
      | false =>
          cases ps with
          | nil =>
              rw [memberRunsFrom_single hending, ownRun, hp] at hruns
              cases hruns
          | cons q ps =>
              obtain ⟨hedge, hrest⟩ := List.isChain_cons_cons.mp hgaps
              have hq : q.member = true := hedge.resolve_left (Bool.eq_false_iff.mp hp)
              rw [memberRunsFrom_cons hending, ownRun, hp] at hruns
              obtain ⟨hlow, hpoints⟩ := points_behind_member hending.tail hrest hq hruns
              have hmin : a.min < r.low := hlow ▸ Nat.lt_succ_of_le (h.above p List.mem_cons_self)
              rw [intervalPoints, if_pos hmin, hpoints, hlow, Nat.add_sub_cancel, ← hp]
              rfl

end Transducer.CharClass
