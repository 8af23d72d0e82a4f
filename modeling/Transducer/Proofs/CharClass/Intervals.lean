import Transducer.Proofs.CharClass.Partition

/-!
# Classes from intervals

The union of some intervals of the alphabet has the code points that lie in one of them as its members. It does not
matter how the intervals overlap or in which order they come, and the member runs of a canonical class are intervals
that it is the union of.
-/

namespace Transducer.CharClass

variable {a : Alphabet} {k : CharClass} {p : CodePoint → Bool} {intervals : List (CodePoint × CodePoint)}

/-- The bounds are in order and lie in the alphabet. -/
def Fits (a : Alphabet) (r : CodePoint × CodePoint) : Prop := a.min ≤ r.1 ∧ r.1 ≤ r.2 ∧ r.2 ≤ a.max

/-- The code point lies in one of the intervals. -/
def liesIn (intervals : List (CodePoint × CodePoint)) (c : CodePoint) : Bool :=
  intervals.any fun r => decide (r.1 ≤ c ∧ c ≤ r.2)

theorem fits_of_interval {r : CodePoint × CodePoint} (h : interval a r.1 r.2 = .ok k) : Fits a r := by
  unfold interval at h
  split at h
  · rename_i hfits
    exact hfits
  · cases h

/-- Another interval of the alphabet makes its code points members. -/
theorem Represents.addInterval (h : Represents a k p) {r : CodePoint × CodePoint} (hr : Fits a r) :
    Returns (do union a k (← interval a r.1 r.2)) fun l =>
      Represents a l fun c => p c || decide (r.1 ≤ c ∧ c ≤ r.2) :=
  (represents_interval hr.1 hr.2.1 hr.2.2).bind fun _ hl => h.combine hl fun x y => x || y

theorem Represents.addIntervals (h : Represents a k p) (hfits : ∀ r ∈ intervals, Fits a r) :
    Returns (intervals.foldlM (fun k r => do union a k (← interval a r.1 r.2)) k) fun l =>
      Represents a l fun c => p c || liesIn intervals c := by
  induction intervals generalizing k p with
  | nil =>
      apply Returns.ok
      simpa [liesIn] using h
  | cons r intervals ih =>
      obtain ⟨hr, hintervals⟩ := List.forall_mem_cons.mp hfits
      rw [List.foldlM_cons]
      refine (h.addInterval hr).bind fun l hl => (ih hl hintervals).mono fun m hm => ?_
      simpa only [liesIn, List.any_cons, Bool.or_assoc] using hm

theorem represents_ofIntervals (ha : a.min ≤ a.max) (hfits : ∀ r ∈ intervals, Fits a r) :
    Returns (ofIntervals a intervals) fun k => Represents a k (liesIn intervals) := by
  have hempty := (represents_empty ha).addIntervals hfits
  simp only [Bool.false_or] at hempty
  exact hempty

/-- There is a union precisely if all intervals fit the alphabet. -/
theorem exists_ofIntervals_iff (ha : a.min ≤ a.max) :
    (∃ k, ofIntervals a intervals = .ok k) ↔ ∀ r ∈ intervals, Fits a r := by
  constructor
  · rintro ⟨k, hk⟩
    have hfold (l : CharClass) (hl : intervals.foldlM (fun k r => do union a k (← interval a r.1 r.2)) l = .ok k) :
        ∀ r ∈ intervals, Fits a r := by
      clear hk
      induction intervals generalizing l with
      | nil => exact fun _ hr => nomatch hr
      | cons r intervals ih =>
          rw [List.foldlM_cons] at hl
          obtain ⟨m, hm, hrest⟩ := bind_eq_ok hl
          obtain ⟨n, hn, -⟩ := bind_eq_ok hm
          exact List.forall_mem_cons.mpr ⟨fits_of_interval hn, ih m hrest⟩
    exact hfold _ hk
  · intro hfits
    obtain ⟨k, hk, -⟩ := represents_ofIntervals ha hfits
    exact ⟨k, hk⟩

/-- The bounds of the member runs. -/
def memberIntervals (a : Alphabet) (k : CharClass) : List (CodePoint × CodePoint) :=
  (k.memberRuns a).map fun r => (r.low, r.high)

theorem WellFormed.liesIn_memberIntervals (h : WellFormed a k) {c : CodePoint} (hc : a.holds c = true) :
    liesIn (memberIntervals a k) c = k.contains c := by
  obtain ⟨hmin, hmax⟩ := holds_iff.mp hc
  obtain ⟨r, hruns, hmember⟩ := h.spans.filter_covers hmin hmax
  rw [contains_eq_flagAt h.ascending, ← hmember]
  have hcovers : liesIn (memberIntervals a k) c = ((k.runs a).filter (·.covers c)).any (·.member) := by
    simp [liesIn, memberIntervals, memberRuns, Run.covers, Bool.and_comm]
  rw [hcovers, runs, hruns]
  simp

/-- A canonical class is the union of its member runs. -/
theorem WellFormed.ofIntervals_memberIntervals (h : WellFormed a k) (hcanonical : k.isCanonical = true) :
    ofIntervals a (memberIntervals a k) = .ok k := by
  have ha : a.min ≤ a.max := by
    obtain ⟨p, hp, hpoint⟩ := Option.map_eq_some_iff.mp h.ends
    exact hpoint ▸ h.above p (List.mem_of_getLast? hp)
  have hfits : ∀ r ∈ memberIntervals a k, Fits a r := by
    intro r hr
    obtain ⟨run, hrun, rfl⟩ := List.mem_map.mp hr
    obtain ⟨hrun, hmember⟩ := List.mem_filter.mp hrun
    have hmembers := h.members_of_mem_runs hrun hmember
    exact ⟨hmembers.inside.1, hmembers.ordered, hmembers.inside.2⟩
  obtain ⟨l, hl, hrepresents⟩ := represents_ofIntervals ha hfits
  have hself : Represents a k k.contains := ⟨h, hcanonical, fun _ _ => rfl⟩
  rw [hl]
  congr 1
  exact (hrepresents.eq_iff hself).mpr fun c hc => h.liesIn_memberIntervals hc

end Transducer.CharClass
