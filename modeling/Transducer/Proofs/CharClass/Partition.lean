import Transducer.Proofs.CharClass.Extensionality
import Transducer.Proofs.CharClass.Runs

/-!
# The runs of a class partition the alphabet

The runs of a well-formed class follow one another from the alphabet's minimum to its maximum. Every code point lies in
one of them, and the flag of that run is what the search for the code point finds. Another run is looked for only behind
a point below the maximum, so the step to its start never leaves the code points, also where the alphabet ends with the
last of them.

In a canonical class the flag changes at both ends of a run, unless the alphabet ends there. So the member runs are the
intervals of members that cannot be made larger.
-/

namespace Transducer.CharClass

variable {a : Alphabet} {k : CharClass} {low : CodePoint} {points : List Breakpoint} {r : Run}

/-- Whether a code point lies in the run. -/
def Run.covers (r : Run) (c : CodePoint) : Bool := r.low ≤ c && c ≤ r.high

theorem Run.covers_iff {c : CodePoint} : r.covers c = true ↔ r.low ≤ c ∧ c ≤ r.high := by
  simp [Run.covers]

/-! ### One run after the other -/

/-- The runs as they are found. The next one starts at the successor of the point before it, or there is none. -/
def walk (a : Alphabet) : Option CodePoint → List Breakpoint → Except Error (List Run)
  | some low, p :: ps => do
      let next ← if p.point < a.max then (successor p.point).map some else .ok none
      let runs ← walk a next ps
      return ⟨low, p.point, p.member⟩ :: runs
  | _, _ => .ok []

theorem successor_of_lt {c : CodePoint} (hmax : a.max ≤ CodePoint.ceiling) (hc : c < a.max) :
    successor c = .ok (c + 1) := by
  have hbelow : c < CodePoint.ceiling := by lia
  simp [successor, hbelow]

theorem walk_eq (hmax : a.max ≤ CodePoint.ceiling) (low : CodePoint) (points : List Breakpoint) :
    walk a (some low) points = .ok (runsFrom a low points) := by
  induction points generalizing low with
  | nil => rfl
  | cons p ps ih =>
      by_cases hp : p.point < a.max
      · simp only [walk, runsFrom, if_pos hp, successor_of_lt hmax hp, Except.map, bind, Except.bind, ih]
        rfl
      · simp only [walk, runsFrom, if_neg hp, bind, Except.bind]
        rfl

theorem runsFrom_last (p : Breakpoint) (low : CodePoint) : runsFrom a low [p] = [⟨low, p.point, p.member⟩] := by
  simp [runsFrom]

theorem runsFrom_cons {p : Breakpoint} (hlt : p.point < a.max) (low : CodePoint) (ps : List Breakpoint) :
    runsFrom a low (p :: ps) = ⟨low, p.point, p.member⟩ :: runsFrom a (p.point + 1) ps := by
  simp [runsFrom, hlt]

/-- The entries reach from `low` to the alphabet's maximum. -/
inductive Spans (a : Alphabet) : CodePoint → List Breakpoint → Prop where
  | last {low : CodePoint} {p : Breakpoint} (hlow : low ≤ p.point) (hmax : p.point = a.max) : Spans a low [p]
  | cons {low : CodePoint} {p : Breakpoint} {ps : List Breakpoint} (hlow : low ≤ p.point) (hlt : p.point < a.max)
      (hrest : Spans a (p.point + 1) ps) : Spans a low (p :: ps)

theorem spans_of_ending (h : Ending a points) (habove : ∀ p ∈ points, low ≤ p.point) : Spans a low points := by
  induction points generalizing low with
  | nil => exact absurd rfl h.ne_nil
  | cons p ps ih =>
      have hlow : low ≤ p.point := habove p List.mem_cons_self
      cases ps with
      | nil => exact .last hlow h.point_eq
      | cons q ps =>
          apply Spans.cons hlow h.point_lt
          apply ih h.tail
          intro r hr
          exact List.rel_of_pairwise_cons h.ascending hr

theorem WellFormed.spans (h : WellFormed a k) : Spans a a.min k.points := spans_of_ending h.ending h.above

/-! ### Partitions -/

/-- The runs follow one another from `low` to `high`, none of them being empty. -/
structure Partitions (low high : CodePoint) (runs : List Run) : Prop where
  ordered : ∀ r ∈ runs, r.low ≤ r.high
  starts : runs.head?.map Run.low = some low
  adjacent : runs.IsChain fun r s => s.low = r.high + 1
  ends : runs.getLast?.map Run.high = some high

namespace Spans

theorem partitions (h : Spans a low points) : Partitions low a.max (runsFrom a low points) := by
  induction h with
  | @last low p hlow hmax =>
      rw [runsFrom_last]
      exact ⟨by simpa using hlow, rfl, .singleton _, by simp [hmax]⟩
  | @cons low p ps hlow hlt _ ih =>
      rw [runsFrom_cons hlt]
      cases hruns : runsFrom a (p.point + 1) ps with
      | nil =>
          have hstarts := ih.starts
          simp [hruns] at hstarts
      | cons s rest =>
          rw [hruns] at ih
          have hnext : s.low = p.point + 1 := by simpa using ih.starts
          refine ⟨?_, rfl, .cons_cons hnext ih.adjacent, ?_⟩
          · exact List.forall_mem_cons.mpr ⟨hlow, ih.ordered⟩
          · simpa using ih.ends

theorem low_le (h : Spans a low points) : ∀ r ∈ runsFrom a low points, low ≤ r.low := by
  induction h with
  | @last low p hlow hmax => simp [runsFrom_last]
  | @cons low p ps hlow hlt _ ih =>
      rw [runsFrom_cons hlt]
      refine List.forall_mem_cons.mpr ⟨Nat.le_refl low, fun r hr => ?_⟩
      have hbehind := ih r hr
      lia

theorem high_le (h : Spans a low points) : ∀ r ∈ runsFrom a low points, r.high ≤ a.max := by
  induction h with
  | @last low p _ hmax => simp [runsFrom_last, hmax]
  | @cons low p ps _ hlt _ ih =>
      rw [runsFrom_cons hlt]
      exact List.forall_mem_cons.mpr ⟨Nat.le_of_lt hlt, ih⟩

/-- A code point lies in a single run, which carries its flag. -/
theorem filter_covers (h : Spans a low points) {c : CodePoint} (hlow : low ≤ c) (hmax : c ≤ a.max) :
    ∃ r, (runsFrom a low points).filter (·.covers c) = [r] ∧ r.member = flagAt c points := by
  induction h with
  | @last low p _ hp =>
      have hc : c ≤ p.point := by lia
      exact ⟨⟨low, p.point, p.member⟩, by simp [runsFrom_last, Run.covers, hlow, hc], by simp [flagAt, hc]⟩
  | @cons low p ps _ hlt hrest ih =>
      rw [runsFrom_cons hlt]
      by_cases hc : c ≤ p.point
      · have hothers : (runsFrom a (p.point + 1) ps).filter (·.covers c) = [] := by
          apply List.filter_eq_nil_iff.mpr
          intro r hr hcovers
          have hbehind := hrest.low_le r hr
          have hinside := Run.covers_iff.mp hcovers
          lia
        refine ⟨⟨low, p.point, p.member⟩, ?_, by simp [flagAt, hc]⟩
        rw [List.filter_cons, if_pos (Run.covers_iff.mpr ⟨hlow, hc⟩), hothers]
      · obtain ⟨r, hfilter, hflag⟩ := ih (by lia)
        exact ⟨r, by simpa [Run.covers, hc] using hfilter, by rw [flagAt_cons_of_not_le _ hc, hflag]⟩

theorem flagAt_of_mem (h : Spans a low points) (hr : r ∈ runsFrom a low points) {c : CodePoint}
    (hcovers : r.covers c = true) (hmax : c ≤ a.max) : flagAt c points = r.member := by
  have hinside := Run.covers_iff.mp hcovers
  have hlow := h.low_le r hr
  obtain ⟨s, hfilter, hflag⟩ := h.filter_covers (c := c) (by lia) hmax
  have hmem : r ∈ (runsFrom a low points).filter (·.covers c) := List.mem_filter.mpr ⟨hr, hcovers⟩
  rw [hfilter, List.mem_singleton] at hmem
  rw [← hflag, hmem]

theorem alternate (h : Spans a low points) (halternates : isCanonical.alternates points = true) :
    (runsFrom a low points).IsChain fun r s => r.member ≠ s.member := by
  induction h with
  | @last low p _ hmax => simp [runsFrom_last]
  | @cons low p ps _ hlt hrest ih =>
      have hchain := alternates_iff.mp halternates
      rw [runsFrom_cons hlt]
      cases hrest with
      | @last _ q _ hmax =>
          rw [runsFrom_last]
          exact .cons_cons (List.isChain_cons_cons.mp hchain).1 (.singleton _)
      | @cons _ q qs _ hq _ =>
          obtain ⟨hdiffers, htail⟩ := List.isChain_cons_cons.mp hchain
          have hrest := ih (alternates_iff.mpr htail)
          rw [runsFrom_cons hq] at hrest ⊢
          exact .cons_cons hdiffers hrest

end Spans

/-! ### Canonical classes -/

/-- The flag changes at both ends of a run, or they are the ends of what the list covers. -/
structure Bordered (a : Alphabet) (low : CodePoint) (points : List Breakpoint) (r : Run) : Prop where
  below : low < r.low → flagAt (r.low - 1) points = !r.member
  above : r.high < a.max → flagAt (r.high + 1) points = !r.member

namespace Canonical

theorem spans (h : Canonical low a.max points) : Spans a low points := spans_of_ending ⟨h.ascending, h.ends⟩ h.above

/-- A run ends where the flag changes, and the next one starts there. -/
theorem bordered (h : Canonical low a.max points) : ∀ r ∈ runsFrom a low points, Bordered a low points r := by
  induction points generalizing low with
  | nil => exact nomatch h.ends
  | cons p ps ih =>
      intro r hr
      cases ps with
      | nil =>
          rw [runsFrom_last, List.mem_singleton] at hr
          subst hr
          exact ⟨fun hlow => absurd hlow (Nat.lt_irrefl low), h.flagAt_behind⟩
      | cons q ps =>
          have hlt : p.point < a.max := Ending.point_lt ⟨h.ascending, h.ends⟩
          rw [runsFrom_cons hlt] at hr
          obtain rfl | hr := List.mem_cons.mp hr
          · exact ⟨fun hlow => absurd hlow (Nat.lt_irrefl low), h.flagAt_behind⟩
          · have hrun := ih h.tail r hr
            have hbehind := h.tail.spans.low_le r hr
            have hordered := h.tail.spans.partitions.ordered r hr
            have htail {c : CodePoint} (hc : p.point < c) : flagAt c (p :: q :: ps) = flagAt c (q :: ps) :=
              flagAt_cons_of_not_le _ (Nat.not_le_of_lt hc)
            constructor
            · intro _
              by_cases hlow : p.point + 1 < r.low
              · rw [htail (by lia), hrun.below hlow]
              · -- The run is the second one, whose flag is that of the code point behind the first one.
                have hstart : r.low = p.point + 1 := by lia
                have hfirst : flagAt r.low (q :: ps) = r.member :=
                  h.tail.spans.flagAt_of_mem hr (Run.covers_iff.mpr ⟨Nat.le_refl _, hordered⟩) (by lia)
                have hchange := h.flagAt_behind hlt
                rw [htail (Nat.lt_add_one p.point), ← hstart, hfirst] at hchange
                simp [hstart, flagAt, hchange]
            · intro hhigh
              rw [htail (by lia), hrun.above hhigh]

end Canonical

/-- All code points from `low` to `high` belong to the alphabet and are members. -/
structure Members (a : Alphabet) (k : CharClass) (low high : CodePoint) : Prop where
  ordered : low ≤ high
  inside : a.min ≤ low ∧ high ≤ a.max
  contains : ∀ c, low ≤ c → c ≤ high → k.contains c = true

/-- No larger interval consists of members. -/
structure MaximalMembers (a : Alphabet) (k : CharClass) (low high : CodePoint) : Prop where
  members : Members a k low high
  maximal : ∀ low' high', Members a k low' high' → low' ≤ low → high ≤ high' → low' = low ∧ high' = high

namespace WellFormed

theorem contains_of_mem_runs (h : WellFormed a k) (hr : r ∈ k.runs a) {c : CodePoint} (hcovers : r.covers c = true)
    (hmax : c ≤ a.max) : k.contains c = r.member := by
  rw [contains_eq_flagAt h.ascending]
  exact h.spans.flagAt_of_mem hr hcovers hmax

theorem high_le (h : WellFormed a k) (hr : r ∈ k.runs a) : r.high ≤ a.max := h.spans.high_le r hr

/-- A member run is an interval of members. -/
theorem members_of_mem_runs (h : WellFormed a k) (hr : r ∈ k.runs a) (hmember : r.member = true) :
    Members a k r.low r.high where
  ordered := h.spans.partitions.ordered r hr
  inside := ⟨h.spans.low_le r hr, h.high_le hr⟩
  contains := by
    intro c hlow hhigh
    rw [h.contains_of_mem_runs hr (Run.covers_iff.mpr ⟨hlow, hhigh⟩) (Nat.le_trans hhigh (h.high_le hr)), hmember]

/-- An interval of members that meets a member run of a canonical class lies in it. -/
theorem members_le_run (h : WellFormed a k) (hcanonical : k.isCanonical = true) (hr : r ∈ k.runs a)
    (hmember : r.member = true) {low high c : CodePoint} (hmembers : Members a k low high)
    (hcovers : r.covers c = true) (hlow : low ≤ c) (hhigh : c ≤ high) : r.low ≤ low ∧ high ≤ r.high := by
  have hbordered := Canonical.bordered ⟨h.ascending, h.above, h.ends, hcanonical⟩ r hr
  have hinside := Run.covers_iff.mp hcovers
  have hborder {d : CodePoint} (hd : flagAt d k.points = !r.member) (hdlow : low ≤ d) : ¬ d ≤ high := by
    intro hdhigh
    have hcontains := hmembers.contains d hdlow hdhigh
    rw [contains_eq_flagAt h.ascending, hd, hmember] at hcontains
    cases hcontains
  constructor
  · by_contra hlt
    have hmin := hmembers.inside.1
    exact hborder (hbordered.below (by lia)) (by lia) (by lia)
  · by_contra hlt
    have hmax := hmembers.inside.2
    exact hborder (hbordered.above (by lia)) (by lia) (by lia)

/-- The member runs of a canonical class are its maximal intervals of members. -/
theorem mem_memberRuns_iff (h : WellFormed a k) (hcanonical : k.isCanonical = true) (low high : CodePoint) :
    ⟨low, high, true⟩ ∈ k.memberRuns a ↔ MaximalMembers a k low high := by
  constructor
  · intro hmem
    have hr := (List.mem_filter.mp hmem).1
    have hmembers := h.members_of_mem_runs hr rfl
    refine ⟨hmembers, fun low' high' hmembers' hlow hhigh => ?_⟩
    have hordered : low ≤ high := hmembers.ordered
    have hle := h.members_le_run hcanonical hr rfl hmembers' (c := low) (Run.covers_iff.mpr ⟨Nat.le_refl low, hordered⟩)
      hlow (Nat.le_trans hordered hhigh)
    exact ⟨Nat.le_antisymm hlow hle.1, Nat.le_antisymm hle.2 hhigh⟩
  · rintro ⟨hmembers, hmaximal⟩
    have hordered := hmembers.ordered
    have hinside := hmembers.inside
    -- The run that the interval starts in is as large as the interval.
    obtain ⟨r, hfilter, hflag⟩ := h.spans.filter_covers (c := low) hinside.1 (Nat.le_trans hordered hinside.2)
    have hmem : r ∈ (k.runs a).filter (·.covers low) := by
      rw [runs, hfilter]
      exact List.mem_singleton_self r
    obtain ⟨hr, hcovers⟩ := List.mem_filter.mp hmem
    have hmember : r.member = true := by
      rw [hflag, ← contains_eq_flagAt h.ascending]
      exact hmembers.contains low (Nat.le_refl low) hordered
    have hle := h.members_le_run hcanonical hr hmember hmembers hcovers (Nat.le_refl low) hordered
    obtain ⟨hlow, hhigh⟩ := hmaximal r.low r.high (h.members_of_mem_runs hr hmember) hle.1 hle.2
    refine List.mem_filter.mpr ⟨?_, rfl⟩
    rw [← hlow, ← hhigh, ← hmember]
    exact hr

end WellFormed

/-- The runs of a class. No step from a run to the next one leaves the code points. The runs are not empty and follow
one another from the alphabet's minimum to its maximum; every code point of the alphabet lies in precisely one of them,
whose flag tells whether the code point is a member. There are as many member runs as are counted. In a canonical class
neighbouring runs differ in their flags, and the member runs are the maximal intervals of members. -/
theorem runs_partition_alphabet {a : Alphabet} {k : CharClass} (hmax : a.max ≤ CodePoint.ceiling)
    (h : WellFormed a k) :
    walk a (some a.min) k.points = .ok (k.runs a) ∧
      Partitions a.min a.max (k.runs a) ∧
      (∀ c, a.holds c = true → ∃ r, (k.runs a).filter (·.covers c) = [r] ∧ r.member = k.contains c) ∧
      k.memberRunCount = ((k.runs a).filter (·.member)).length ∧
      (k.isCanonical = true →
        (k.runs a).IsChain (fun r s => r.member ≠ s.member) ∧
          ∀ low high, ⟨low, high, true⟩ ∈ k.memberRuns a ↔ MaximalMembers a k low high) := by
  refine ⟨walk_eq hmax a.min k.points, h.spans.partitions, fun c hc => ?_, h.length_memberRuns.symm,
    fun hcanonical => ⟨h.spans.alternate hcanonical, h.mem_memberRuns_iff hcanonical⟩⟩
  obtain ⟨hlow, hhigh⟩ := holds_iff.mp hc
  rw [contains_eq_flagAt h.ascending]
  exact h.spans.filter_covers hlow hhigh

/-- An alphabet that ends with the last code point there is, which is a run of its own. -/
theorem runs_partition_alphabet_to_ceiling :
    let a : Alphabet := ⟨97, CodePoint.ceiling⟩
    let k : CharClass := ⟨[⟨99, true⟩, ⟨104, false⟩, ⟨4294967294, true⟩, ⟨CodePoint.ceiling, false⟩]⟩
    WellFormed a k ∧ k.isCanonical = true ∧ walk a (some 97) k.points = .ok (k.runs a) ∧
      k.runs a = [⟨97, 99, true⟩, ⟨100, 104, false⟩, ⟨105, 4294967294, true⟩,
        ⟨CodePoint.ceiling, CodePoint.ceiling, false⟩] ∧
      MaximalMembers a k 97 99 ∧ MaximalMembers a k 105 4294967294 := by
  intro a k
  have hmax : a.max ≤ CodePoint.ceiling := Nat.le_refl _
  have hwell : WellFormed a k := ⟨by decide, by decide, rfl⟩
  obtain ⟨hwalk, -, -, -, hcanonical⟩ := runs_partition_alphabet hmax hwell
  obtain ⟨-, hmaximal⟩ := hcanonical rfl
  exact ⟨hwell, rfl, hwalk, rfl, (hmaximal 97 99).mp (by decide), (hmaximal 105 4294967294).mp (by decide)⟩

end Transducer.CharClass
