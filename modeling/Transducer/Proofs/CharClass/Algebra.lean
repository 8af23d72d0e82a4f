import Transducer.CharClass.Algebra

/-!
# Classes as sets of code points

A breakpoint list is read by `flagAt`: the flag of the first entry that reaches a code point. On ascending lists
this is what the halving search of `contains` finds. Merging two lists and collapsing the result combine the flags
code point by code point, and lists that ascend and end at the alphabet's maximum stay such lists, so that a
combination of classes never fails.
-/

namespace Transducer.CharClass

/-- The points ascend strictly. -/
def Ascending (points : List Breakpoint) : Prop := points.Pairwise fun p q => p.point < q.point

instance (points : List Breakpoint) : Decidable (Ascending points) :=
  inferInstanceAs (Decidable (points.Pairwise fun p q => p.point < q.point))

def lastPoint (points : List Breakpoint) : Option CodePoint := points.getLast?.map (·.point)

/-- The list ascends from the alphabet's minimum on and ends at its maximum. -/
structure WellFormed (a : Alphabet) (k : CharClass) : Prop where
  ascending : Ascending k.points
  above : ∀ p ∈ k.points, a.min ≤ p.point
  ends : lastPoint k.points = some a.max

/-- The flag of the first entry that reaches `c`. -/
def flagAt (c : CodePoint) : List Breakpoint → Bool
  | [] => false
  | p :: ps => if c ≤ p.point then p.member else flagAt c ps

@[simp]
theorem lastPoint_singleton (p : Breakpoint) : lastPoint [p] = some p.point := rfl

@[simp]
theorem lastPoint_cons_cons (p q : Breakpoint) (ps : List Breakpoint) :
    lastPoint (p :: q :: ps) = lastPoint (q :: ps) := rfl

theorem lastPoint_cons {p : Breakpoint} {ps : List Breakpoint} {m : CodePoint} (h : lastPoint ps = some m) :
    lastPoint (p :: ps) = some m := by
  cases ps with
  | nil => cases h
  | cons q ps => exact h

theorem Ascending.le_lastPoint {points : List Breakpoint} {m : CodePoint} (h : Ascending points)
    (hlast : lastPoint points = some m) : ∀ p ∈ points, p.point ≤ m := by
  induction points with
  | nil => intro p hp; cases hp
  | cons q ps ih =>
      intro p hp
      cases ps with
      | nil =>
          rw [List.mem_singleton.mp hp]
          exact Nat.le_of_eq (Option.some.inj hlast)
      | cons r ps =>
          have hr : r.point ≤ m := ih h.of_cons hlast r List.mem_cons_self
          obtain rfl | hp := List.mem_cons.mp hp
          · have hpr : p.point < r.point := List.rel_of_pairwise_cons h List.mem_cons_self
            exact Nat.le_trans (Nat.le_of_lt hpr) hr
          · exact ih h.of_cons hlast p hp

/-! ### Reading a list by halving -/

/-- Entries that reach a code point are followed by such entries only. -/
theorem reaches_mono {points : List Breakpoint} (h : Ascending points) {c : CodePoint} {i j : Nat} (hij : i ≤ j)
    (hi : search.reaches points c i = true) : search.reaches points c j = true := by
  unfold search.reaches at hi ⊢
  cases hj : points[j]? with
  | none => rfl
  | some q =>
      obtain ⟨hjlt, hjq⟩ := List.getElem?_eq_some_iff.mp hj
      have hilt : i < points.length := by omega
      rw [List.getElem?_eq_getElem hilt] at hi
      have hci : c ≤ points[i].point := of_decide_eq_true hi
      have hle : points[i].point ≤ points[j].point := by
        obtain rfl | hlt := Nat.eq_or_lt_of_le hij
        · exact Nat.le_refl _
        · exact Nat.le_of_lt (List.pairwise_iff_getElem.mp h i j hilt hjlt hlt)
      rw [hjq] at hle
      exact decide_eq_true (Nat.le_trans hci hle)

/-- The search ends at the first entry that reaches the code point. Everything in front of the window fails to
reach it, and everything behind the window does. -/
theorem search_spec {points : List Breakpoint} (h : Ascending points) (c : CodePoint) (base size : Nat)
    (hfront : ∀ j < base, search.reaches points c j = false)
    (hback : ∀ j, base + size ≤ j → search.reaches points c j = true) :
    (∀ j < search points c base size, search.reaches points c j = false) ∧
      search.reaches points c (search points c base size) = true := by
  fun_induction search points c base size with
  | case1 base size hsize half hhalf ih =>
      refine ih hfront fun j hj => reaches_mono h ?_ hhalf
      omega
  | case2 base size hsize half hhalf ih =>
      refine ih (fun j hj => ?_) (fun j hj => hback j (by omega))
      cases hreach : search.reaches points c j with
      | false => rfl
      | true => exact absurd (reaches_mono h (by omega) hreach) hhalf
  | case3 base size hsize hbase => exact ⟨hfront, hbase⟩
  | case4 base size hsize hbase =>
      have hone : size = 1 := by
        have hzero : size ≠ 0 := fun hzero => hbase (hback base (by omega))
        omega
      refine ⟨fun j hj => ?_, hback _ (by omega)⟩
      obtain hlt | rfl := Nat.lt_succ_iff_lt_or_eq.mp hj
      · exact hfront j hlt
      · exact Bool.eq_false_iff.mpr hbase

theorem flagAt_of_first {points : List Breakpoint} {c : CodePoint} {i : Nat}
    (hfront : ∀ j < i, search.reaches points c j = false) (hi : search.reaches points c i = true) :
    (match points[i]? with
      | some p => p.member
      | none => false) = flagAt c points := by
  induction points generalizing i with
  | nil => rfl
  | cons p ps ih =>
      cases i with
      | zero =>
          have hp : c ≤ p.point := of_decide_eq_true hi
          simp only [List.getElem?_cons_zero, flagAt, if_pos hp]
      | succ i =>
          have hp : ¬ c ≤ p.point := of_decide_eq_false (hfront 0 (Nat.succ_pos i))
          simp only [List.getElem?_cons_succ, flagAt, if_neg hp]
          exact ih (fun j hj => hfront (j + 1) (Nat.succ_lt_succ hj)) hi

theorem contains_eq_flagAt {k : CharClass} (h : Ascending k.points) (c : CodePoint) :
    k.contains c = flagAt c k.points := by
  have hback : ∀ j, 0 + k.points.length ≤ j → search.reaches k.points c j = true := by
    intro j hj
    unfold search.reaches
    rw [List.getElem?_eq_none (by omega)]
  obtain ⟨hfront, hfirst⟩ := search_spec h c 0 k.points.length (fun j hj => absurd hj (Nat.not_lt_zero j)) hback
  exact flagAt_of_first hfront hfirst

/-! ### Merging -/

@[simp]
theorem merge_nil_right (f : Bool → Bool → Bool) (ps : List Breakpoint) : merge f ps [] = [] := by
  cases ps <;> rfl

theorem merge_cons_cons (f : Bool → Bool → Bool) (p q : Breakpoint) (ps qs : List Breakpoint) :
    merge f (p :: ps) (q :: qs) =
      if p.point < q.point then ⟨p.point, f p.member q.member⟩ :: merge f ps (q :: qs)
      else if q.point < p.point then ⟨q.point, f p.member q.member⟩ :: merge f (p :: ps) qs
      else ⟨p.point, f p.member q.member⟩ :: merge f ps qs := rfl

/-- The recursion of a merge: the entry with the smaller point goes first, and equal ones go together. -/
theorem merge_induction {motive : List Breakpoint → List Breakpoint → Prop} (hleft : ∀ qs, motive [] qs)
    (hright : ∀ ps, motive ps [])
    (hlt : ∀ p ps q qs, p.point < q.point → motive ps (q :: qs) → motive (p :: ps) (q :: qs))
    (hgt : ∀ p ps q qs, q.point < p.point → motive (p :: ps) qs → motive (p :: ps) (q :: qs))
    (heq : ∀ p ps q qs, p.point = q.point → motive ps qs → motive (p :: ps) (q :: qs)) (ps qs : List Breakpoint) :
    motive ps qs := by
  induction ps generalizing qs with
  | nil => exact hleft qs
  | cons p ps ihp =>
      induction qs with
      | nil => exact hright _
      | cons q qs ihq =>
          obtain h | h | h := Nat.lt_trichotomy p.point q.point
          · exact hlt p ps q qs h (ihp _)
          · exact heq p ps q qs h (ihp _)
          · exact hgt p ps q qs h ihq

theorem merge_of_lt (f : Bool → Bool → Bool) {p q : Breakpoint} (ps qs : List Breakpoint) (h : p.point < q.point) :
    merge f (p :: ps) (q :: qs) = ⟨p.point, f p.member q.member⟩ :: merge f ps (q :: qs) := by
  rw [merge_cons_cons, if_pos h]

theorem merge_of_gt (f : Bool → Bool → Bool) {p q : Breakpoint} (ps qs : List Breakpoint) (h : q.point < p.point) :
    merge f (p :: ps) (q :: qs) = ⟨q.point, f p.member q.member⟩ :: merge f (p :: ps) qs := by
  rw [merge_cons_cons, if_neg (Nat.lt_asymm h), if_pos h]

theorem merge_of_eq (f : Bool → Bool → Bool) {p q : Breakpoint} (ps qs : List Breakpoint) (h : p.point = q.point) :
    merge f (p :: ps) (q :: qs) = ⟨p.point, f p.member q.member⟩ :: merge f ps qs := by
  rw [merge_cons_cons, if_neg (Nat.not_lt.mpr (Nat.le_of_eq h.symm)), if_neg (Nat.not_lt.mpr (Nat.le_of_eq h))]

/-- Some entry reaches `c`. -/
def Reached (c : CodePoint) (points : List Breakpoint) : Prop := ∃ p ∈ points, c ≤ p.point

theorem Reached.tail {c : CodePoint} {p : Breakpoint} {ps : List Breakpoint} (h : Reached c (p :: ps))
    (hp : ¬ c ≤ p.point) : Reached c ps := by
  obtain ⟨q, hq, hcq⟩ := h
  obtain rfl | hq := List.mem_cons.mp hq
  · exact absurd hcq hp
  · exact ⟨q, hq, hcq⟩

theorem flagAt_cons_of_not_le {c : CodePoint} {p : Breakpoint} (ps : List Breakpoint) (h : ¬ c ≤ p.point) :
    flagAt c (p :: ps) = flagAt c ps := if_neg h

/-- A merge combines the flags of every code point that both lists reach. -/
theorem flagAt_merge (f : Bool → Bool → Bool) {c : CodePoint} {ps qs : List Breakpoint} (hps : Reached c ps)
    (hqs : Reached c qs) : flagAt c (merge f ps qs) = f (flagAt c ps) (flagAt c qs) := by
  induction ps, qs using merge_induction with
  | hleft qs =>
      obtain ⟨p, hp, -⟩ := hps
      cases hp
  | hright ps =>
      obtain ⟨q, hq, -⟩ := hqs
      cases hq
  | hlt p ps q qs h ih =>
      rw [merge_of_lt f ps qs h]
      by_cases hc : c ≤ p.point
      · have hcq : c ≤ q.point := Nat.le_trans hc (Nat.le_of_lt h)
        simp only [flagAt, if_pos hc, if_pos hcq]
      · rw [flagAt, if_neg hc, ih (hps.tail hc) hqs, flagAt_cons_of_not_le ps hc]
  | hgt p ps q qs h ih =>
      rw [merge_of_gt f ps qs h]
      by_cases hc : c ≤ q.point
      · have hcp : c ≤ p.point := Nat.le_trans hc (Nat.le_of_lt h)
        simp only [flagAt, if_pos hc, if_pos hcp]
      · rw [flagAt, if_neg hc, ih hps (hqs.tail hc), flagAt_cons_of_not_le qs hc]
  | heq p ps q qs h ih =>
      rw [merge_of_eq f ps qs h]
      by_cases hc : c ≤ p.point
      · have hcq : c ≤ q.point := h ▸ hc
        simp only [flagAt, if_pos hc, if_pos hcq]
      · have hcq : ¬ c ≤ q.point := h ▸ hc
        rw [flagAt, if_neg hc, ih (hps.tail hc) (hqs.tail hcq), flagAt_cons_of_not_le ps hc,
          flagAt_cons_of_not_le qs hcq]

theorem point_of_mem_merge (f : Bool → Bool → Bool) {r : Breakpoint} {ps qs : List Breakpoint}
    (hr : r ∈ merge f ps qs) : (∃ p ∈ ps, p.point = r.point) ∨ ∃ q ∈ qs, q.point = r.point := by
  induction ps, qs using merge_induction with
  | hleft qs => cases hr
  | hright ps =>
      rw [merge_nil_right] at hr
      cases hr
  | hlt p ps q qs h ih =>
      rw [merge_of_lt f ps qs h] at hr
      obtain rfl | hr := List.mem_cons.mp hr
      · exact .inl ⟨p, List.mem_cons_self, rfl⟩
      · obtain ⟨p', hp', hpoint⟩ | hq := ih hr
        · exact .inl ⟨p', List.mem_cons_of_mem _ hp', hpoint⟩
        · exact .inr hq
  | hgt p ps q qs h ih =>
      rw [merge_of_gt f ps qs h] at hr
      obtain rfl | hr := List.mem_cons.mp hr
      · exact .inr ⟨q, List.mem_cons_self, rfl⟩
      · obtain hp | ⟨q', hq', hpoint⟩ := ih hr
        · exact .inl hp
        · exact .inr ⟨q', List.mem_cons_of_mem _ hq', hpoint⟩
  | heq p ps q qs h ih =>
      rw [merge_of_eq f ps qs h] at hr
      obtain rfl | hr := List.mem_cons.mp hr
      · exact .inl ⟨p, List.mem_cons_self, rfl⟩
      · obtain ⟨p', hp', hpoint⟩ | ⟨q', hq', hpoint⟩ := ih hr
        · exact .inl ⟨p', List.mem_cons_of_mem _ hp', hpoint⟩
        · exact .inr ⟨q', List.mem_cons_of_mem _ hq', hpoint⟩

theorem ascending_merge (f : Bool → Bool → Bool) {ps qs : List Breakpoint} (hps : Ascending ps)
    (hqs : Ascending qs) : Ascending (merge f ps qs) := by
  induction ps, qs using merge_induction with
  | hleft qs => exact .nil
  | hright ps =>
      rw [merge_nil_right]
      exact .nil
  | hlt p ps q qs h ih =>
      rw [merge_of_lt f ps qs h]
      refine .cons (fun r hr => ?_) (ih hps.of_cons hqs)
      obtain ⟨p', hp', hpoint⟩ | ⟨q', hq', hpoint⟩ := point_of_mem_merge f hr
      · rw [← hpoint]
        exact List.rel_of_pairwise_cons hps hp'
      · rw [← hpoint]
        obtain rfl | hq' := List.mem_cons.mp hq'
        · exact h
        · exact Nat.lt_trans h (List.rel_of_pairwise_cons hqs hq')
  | hgt p ps q qs h ih =>
      rw [merge_of_gt f ps qs h]
      refine .cons (fun r hr => ?_) (ih hps hqs.of_cons)
      obtain ⟨p', hp', hpoint⟩ | ⟨q', hq', hpoint⟩ := point_of_mem_merge f hr
      · rw [← hpoint]
        obtain rfl | hp' := List.mem_cons.mp hp'
        · exact h
        · exact Nat.lt_trans h (List.rel_of_pairwise_cons hps hp')
      · rw [← hpoint]
        exact List.rel_of_pairwise_cons hqs hq'
  | heq p ps q qs h ih =>
      rw [merge_of_eq f ps qs h]
      refine .cons (fun r hr => ?_) (ih hps.of_cons hqs.of_cons)
      obtain ⟨p', hp', hpoint⟩ | ⟨q', hq', hpoint⟩ := point_of_mem_merge f hr
      · rw [← hpoint]
        exact List.rel_of_pairwise_cons hps hp'
      · rw [← hpoint, h]
        exact List.rel_of_pairwise_cons hqs hq'

/-- A merge ends where the list ends that ends first. -/
theorem lastPoint_merge (f : Bool → Bool → Bool) {ps qs : List Breakpoint} {m n : CodePoint} (hps : Ascending ps)
    (hqs : Ascending qs) (hm : lastPoint ps = some m) (hn : lastPoint qs = some n) :
    lastPoint (merge f ps qs) = some (min m n) := by
  induction ps, qs using merge_induction with
  | hleft qs => cases hm
  | hright ps => cases hn
  | hlt p ps q qs h ih =>
      rw [merge_of_lt f ps qs h]
      cases ps with
      | nil =>
          have hqn : q.point ≤ n := hqs.le_lastPoint hn q List.mem_cons_self
          have hpm : p.point = m := Option.some.inj hm
          have hmn : m ≤ n := hpm ▸ Nat.le_trans (Nat.le_of_lt h) hqn
          rw [Nat.min_eq_left hmn, ← hpm]
          rfl
      | cons p' ps => exact lastPoint_cons (ih hps.of_cons hqs hm hn)
  | hgt p ps q qs h ih =>
      rw [merge_of_gt f ps qs h]
      cases qs with
      | nil =>
          have hpm : p.point ≤ m := hps.le_lastPoint hm p List.mem_cons_self
          have hqn : q.point = n := Option.some.inj hn
          have hnm : n ≤ m := hqn ▸ Nat.le_trans (Nat.le_of_lt h) hpm
          rw [Nat.min_eq_right hnm, ← hqn, merge_nil_right]
          rfl
      | cons q' qs => exact lastPoint_cons (ih hps hqs.of_cons hm hn)
  | heq p ps q qs h ih =>
      rw [merge_of_eq f ps qs h]
      have hpm : p.point ≤ m := hps.le_lastPoint hm p List.mem_cons_self
      have hqn : q.point ≤ n := hqs.le_lastPoint hn q List.mem_cons_self
      cases ps with
      | nil =>
          have hp : p.point = m := Option.some.inj hm
          rw [Nat.min_eq_left (hp ▸ h ▸ hqn), ← hp]
          rfl
      | cons p' ps =>
          cases qs with
          | nil =>
              have hq : q.point = n := Option.some.inj hn
              rw [Nat.min_eq_right (hq ▸ h ▸ hpm), ← hq, ← h, merge_nil_right]
              rfl
          | cons q' qs => exact lastPoint_cons (ih hps.of_cons hqs.of_cons hm hn)

/-! ### Collapsing -/

theorem collapse_sublist (points : List Breakpoint) : (collapse points).Sublist points := by
  fun_induction collapse points with
  | case1 p q rest _ ih => exact ih.cons p
  | case2 p q rest _ ih => exact ih.cons_cons p
  | case3 points => exact List.Sublist.refl points

theorem lastPoint_collapse (points : List Breakpoint) : lastPoint (collapse points) = lastPoint points := by
  fun_induction collapse points with
  | case1 p q rest _ ih => rw [ih, lastPoint_cons_cons]
  | case2 p q rest _ ih =>
      cases hlast : lastPoint (q :: rest) with
      | none => cases rest <;> cases hlast
      | some m => rw [lastPoint_cons_cons, hlast, lastPoint_cons (ih.trans hlast)]
  | case3 points => rfl

/-- Dropping an entry in front of one with the same flag changes no reading. -/
theorem flagAt_collapse {points : List Breakpoint} (h : Ascending points) (c : CodePoint) :
    flagAt c (collapse points) = flagAt c points := by
  fun_induction collapse points with
  | case1 p q rest hsame ih =>
      rw [ih h.of_cons]
      by_cases hp : c ≤ p.point
      · have hpq : p.point < q.point := List.rel_of_pairwise_cons h List.mem_cons_self
        have hq : c ≤ q.point := Nat.le_trans hp (Nat.le_of_lt hpq)
        simp only [flagAt, if_pos hp, if_pos hq, hsame]
      · rw [flagAt_cons_of_not_le _ hp]
  | case2 p q rest _ ih =>
      by_cases hp : c ≤ p.point
      · simp only [flagAt, if_pos hp]
      · rw [flagAt_cons_of_not_le _ hp, flagAt_cons_of_not_le _ hp, ih h.of_cons]
  | case3 points => rfl

/-! ### Combinations of well-formed classes -/

namespace WellFormed

variable {a : Alphabet} {k l : CharClass}

theorem reached (h : WellFormed a k) {c : CodePoint} (hc : c ≤ a.max) : Reached c k.points := by
  have hends := h.ends
  simp only [lastPoint, Option.map_eq_some_iff] at hends
  obtain ⟨p, hp, hpoint⟩ := hends
  exact ⟨p, List.mem_of_getLast? hp, hpoint ▸ hc⟩

/-- A combination of well-formed classes exists, is well-formed, and combines membership code point by code
point. -/
theorem combine (f : Bool → Bool → Bool) (hk : WellFormed a k) (hl : WellFormed a l) :
    ∃ m, CharClass.combine a f k l = .ok m ∧ WellFormed a m ∧
      ∀ c ≤ a.max, m.contains c = f (k.contains c) (l.contains c) := by
  have hmerge : Ascending (merge f k.points l.points) := ascending_merge f hk.ascending hl.ascending
  have hcollapse : Ascending (collapse (merge f k.points l.points)) := hmerge.sublist (collapse_sublist _)
  have hends : lastPoint (collapse (merge f k.points l.points)) = some a.max := by
    rw [lastPoint_collapse, lastPoint_merge f hk.ascending hl.ascending hk.ends hl.ends, Nat.min_self]
  refine ⟨⟨collapse (merge f k.points l.points)⟩, if_pos hends, ⟨hcollapse, fun r hr => ?_, hends⟩, fun c hc => ?_⟩
  · obtain ⟨p, hp, hpoint⟩ | ⟨q, hq, hpoint⟩ := point_of_mem_merge f ((collapse_sublist _).mem hr)
    · exact hpoint ▸ hk.above p hp
    · exact hpoint ▸ hl.above q hq
  · rw [contains_eq_flagAt hcollapse, contains_eq_flagAt hk.ascending, contains_eq_flagAt hl.ascending,
      flagAt_collapse hmerge, flagAt_merge f (hk.reached hc) (hl.reached hc)]

end WellFormed

/-- The breakpoints of the code points `low` to `high`. -/
def intervalPoints (a : Alphabet) (low high : CodePoint) : List Breakpoint :=
  (if a.min < low then [⟨low - 1, false⟩] else []) ++ ⟨high, true⟩ :: if high < a.max then [⟨a.max, false⟩] else []

section Interval

variable {a : Alphabet} {low high : CodePoint}

theorem interval_eq (hlow : a.min ≤ low) (hle : low ≤ high) (hhigh : high ≤ a.max) :
    interval a low high = .ok ⟨intervalPoints a low high⟩ := by
  rw [interval, if_pos ⟨hlow, hle, hhigh⟩, intervalPoints]
  by_cases hmin : a.min < low
  · have hpos : 0 < low := Nat.lt_of_le_of_lt (Nat.zero_le _) hmin
    simp only [if_pos hmin, predecessor, if_pos hpos]
    rfl
  · simp only [if_neg hmin]
    rfl

theorem mem_intervalPoints {p : Breakpoint} (hp : p ∈ intervalPoints a low high) :
    (a.min < low ∧ p = ⟨low - 1, false⟩) ∨ p = ⟨high, true⟩ ∨ high < a.max ∧ p = ⟨a.max, false⟩ := by
  rw [intervalPoints, List.mem_append, List.mem_cons] at hp
  obtain hp | rfl | hp := hp
  · split at hp
    · rename_i hmin
      exact .inl ⟨hmin, List.mem_singleton.mp hp⟩
    · cases hp
  · exact .inr (.inl rfl)
  · split at hp
    · rename_i hmax
      exact .inr (.inr ⟨hmax, List.mem_singleton.mp hp⟩)
    · cases hp

theorem wellFormed_interval (hlow : a.min ≤ low) (hle : low ≤ high) (hhigh : high ≤ a.max) :
    WellFormed a ⟨intervalPoints a low high⟩ := by
  have habove : a.min ≤ high := Nat.le_trans hlow hle
  have hpred (hmin : a.min < low) : low - 1 < high := Nat.lt_of_lt_of_le (Nat.sub_one_lt_of_lt hmin) hle
  constructor
  · simp only [Ascending, intervalPoints]
    split <;> split <;> simp
    · rename_i hmin hmax
      exact ⟨⟨hpred hmin, Nat.lt_trans (hpred hmin) hmax⟩, hmax⟩
    · rename_i hmin hmax
      exact hpred hmin
    · assumption
  · intro p hp
    obtain ⟨hmin, rfl⟩ | rfl | ⟨-, rfl⟩ := mem_intervalPoints hp
    · exact Nat.le_sub_one_of_lt hmin
    · exact habove
    · exact Nat.le_trans habove hhigh
  · have hlast : lastPoint (⟨high, true⟩ :: if high < a.max then [⟨a.max, false⟩] else []) = some a.max := by
      split
      · rfl
      · rename_i hmax
        exact congrArg some (Nat.le_antisymm hhigh (Nat.not_lt.mp hmax))
    simp only [intervalPoints]
    split
    · exact lastPoint_cons hlast
    · exact hlast

theorem contains_interval (hlow : a.min ≤ low) (hle : low ≤ high) (hhigh : high ≤ a.max) {c : CodePoint}
    (hc : a.holds c = true) :
    CharClass.contains ⟨intervalPoints a low high⟩ c = decide (low ≤ c ∧ c ≤ high) := by
  simp only [Alphabet.holds, Bool.and_eq_true, decide_eq_true_eq] at hc
  have hgap : flagAt c (⟨high, true⟩ :: if high < a.max then [⟨a.max, false⟩] else []) = decide (c ≤ high) := by
    by_cases hch : c ≤ high
    · rw [flagAt, if_pos hch, decide_eq_true hch]
    · have hmax : high < a.max := Nat.lt_of_lt_of_le (Nat.not_le.mp hch) hc.2
      rw [flagAt, if_neg hch, if_pos hmax, flagAt, if_pos hc.2, decide_eq_false hch]
  rw [contains_eq_flagAt (wellFormed_interval hlow hle hhigh).ascending, intervalPoints]
  split
  · rename_i hmin
    by_cases hlc : low ≤ c
    · have hpred : ¬ c ≤ low - 1 := Nat.not_le.mpr (Nat.lt_of_lt_of_le (Nat.sub_one_lt_of_lt hmin) hlc)
      rw [List.singleton_append, flagAt_cons_of_not_le _ hpred, hgap]
      simp only [hlc, true_and]
    · have hpred : c ≤ low - 1 := Nat.le_sub_one_of_lt (Nat.not_le.mp hlc)
      rw [List.singleton_append, flagAt, if_pos hpred, decide_eq_false fun h => hlc h.1]
  · rename_i hmin
    have hlc : low ≤ c := Nat.le_trans (Nat.not_lt.mp hmin) hc.1
    rw [List.nil_append, hgap]
    simp only [hlc, true_and]

end Interval

theorem singleton_spec {a : Alphabet} {c : CodePoint} (hc : a.holds c = true) :
    ∃ k, singleton a c = .ok k ∧ WellFormed a k ∧ ∀ d, a.holds d = true → k.contains d = decide (d = c) := by
  have hbounds := hc
  simp only [Alphabet.holds, Bool.and_eq_true, decide_eq_true_eq] at hbounds
  obtain ⟨hmin, hmax⟩ := hbounds
  refine ⟨⟨intervalPoints a c c⟩, interval_eq hmin (Nat.le_refl c) hmax,
    wellFormed_interval hmin (Nat.le_refl c) hmax, fun d hd => ?_⟩
  rw [contains_interval hmin (Nat.le_refl c) hmax hd, decide_eq_decide]
  constructor
  · rintro ⟨hcd, hdc⟩
    exact Nat.le_antisymm hdc hcd
  · rintro rfl
    exact ⟨Nat.le_refl _, Nat.le_refl _⟩

end Transducer.CharClass
