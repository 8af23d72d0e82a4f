import Transducer.Proofs.CharClass.Algebra

/-!
# Combinations are canonical, and when they fail

Collapsing leaves no two neighbours with the same flag, so a combination of classes is canonical, whatever the
combinator is. A combination ends where the class ends that ends first. It is therefore refused precisely when one of
the classes has no entries or when that end is not the alphabet's maximum.
-/

namespace Transducer.CharClass

/-! ### Canonical lists -/

theorem exists_collapse_cons (p : Breakpoint) (ps : List Breakpoint) :
    ∃ q qs, collapse (p :: ps) = q :: qs ∧ q.member = p.member := by
  induction ps generalizing p with
  | nil => exact ⟨p, [], rfl, rfl⟩
  | cons r ps ih =>
      by_cases hsame : p.member = r.member
      · obtain ⟨q, qs, hcollapse, hmember⟩ := ih r
        refine ⟨q, qs, ?_, hmember.trans hsame.symm⟩
        rw [collapse, if_pos hsame, hcollapse]
      · exact ⟨p, collapse (r :: ps), by rw [collapse, if_neg hsame], rfl⟩

theorem alternates_collapse (points : List Breakpoint) : isCanonical.alternates (collapse points) = true := by
  fun_induction collapse points with
  | case1 p q rest _ ih => exact ih
  | case2 p q rest hdiffers ih =>
      obtain ⟨r, rs, hcollapse, hmember⟩ := exists_collapse_cons q rest
      rw [hcollapse] at ih ⊢
      have hne : (p.member != r.member) = true := by
        rw [hmember]
        exact bne_iff_ne.mpr hdiffers
      rw [isCanonical.alternates, hne, ih]
      rfl
  | case3 points hshort =>
      cases points with
      | nil => rfl
      | cons p ps =>
          cases ps with
          | nil => rfl
          | cons q rest => exact absurd rfl (hshort p q rest)

theorem isCanonical_of_combine {a : Alphabet} {f : Bool → Bool → Bool} {k l m : CharClass}
    (h : combine a f k l = .ok m) : m.isCanonical = true := by
  rw [combine] at h
  split at h
  · cases h
    exact alternates_collapse _
  · cases h

/-! ### Refused combinations -/

/-- One of the lists has no entries, or the end that comes first is not the alphabet's maximum. -/
def OpenEnded (a : Alphabet) (ps qs : List Breakpoint) : Prop :=
  ps = [] ∨ qs = [] ∨ ∃ m n, lastPoint ps = some m ∧ lastPoint qs = some n ∧ min m n ≠ a.max

theorem lastPoint_eq_some {ps : List Breakpoint} (h : ps ≠ []) : ∃ m, lastPoint ps = some m :=
  ⟨_, congrArg (Option.map _) (List.getLast?_eq_some_getLast h)⟩

theorem lastPoint_merge_ne_iff (a : Alphabet) (f : Bool → Bool → Bool) {ps qs : List Breakpoint} (hps : Ascending ps)
    (hqs : Ascending qs) : lastPoint (merge f ps qs) ≠ some a.max ↔ OpenEnded a ps qs := by
  by_cases hleft : ps = []
  · subst hleft
    exact ⟨fun _ => .inl rfl, fun _ h => nomatch h⟩
  · by_cases hright : qs = []
    · subst hright
      rw [merge_nil_right]
      exact ⟨fun _ => .inr (.inl rfl), fun _ h => nomatch h⟩
    · obtain ⟨m, hm⟩ := lastPoint_eq_some hleft
      obtain ⟨n, hn⟩ := lastPoint_eq_some hright
      rw [lastPoint_merge f hps hqs hm hn]
      constructor
      · intro hne
        exact .inr (.inr ⟨m, n, hm, hn, fun heq => hne (congrArg some heq)⟩)
      · rintro (hnil | hnil | ⟨m', n', hm', hn', hne⟩)
        · exact absurd hnil hleft
        · exact absurd hnil hright
        · rw [hm] at hm'
          rw [hn] at hn'
          cases hm'
          cases hn'
          exact fun heq => hne (Option.some.inj heq)

theorem combine_eq_error_iff (a : Alphabet) (f : Bool → Bool → Bool) {k l : CharClass} (hk : Ascending k.points)
    (hl : Ascending l.points) (e : Error) :
    combine a f k l = .error e ↔ e = .openEnded ∧ OpenEnded a k.points l.points := by
  have hends : (collapse (merge f k.points l.points)).getLast?.map (·.point) = lastPoint (merge f k.points l.points) :=
    lastPoint_collapse _
  rw [← lastPoint_merge_ne_iff a f hk hl, combine, hends]
  split
  · rename_i hmax
    exact ⟨fun h => (nomatch h), fun h => absurd hmax h.2⟩
  · rename_i hmax
    constructor
    · intro h
      cases h
      exact ⟨rfl, hmax⟩
    · rintro ⟨rfl, -⟩
      rfl

/-- The algebra of classes. Well-formed classes can be combined by any combinator; the result is well-formed and
canonical, and it combines membership code point by code point. Classes of which only the order is known are refused
precisely when one of them is open-ended. -/
theorem combine_exact (a : Alphabet) (f : Bool → Bool → Bool) (k l : CharClass) :
    (WellFormed a k → WellFormed a l →
      ∃ m, combine a f k l = .ok m ∧ WellFormed a m ∧ m.isCanonical = true ∧
        ∀ c ≤ a.max, m.contains c = f (k.contains c) (l.contains c)) ∧
      (Ascending k.points → Ascending l.points →
        ∀ e, combine a f k l = .error e ↔
          e = .openEnded ∧ OpenEnded a k.points l.points) := by
  refine ⟨fun hk hl => ?_, fun hk hl e => combine_eq_error_iff a f hk hl e⟩
  obtain ⟨m, hm, hwell, hcontains⟩ := hk.combine f hl
  exact ⟨m, hm, hwell, isCanonical_of_combine hm, hcontains⟩

/-- Two classes over ten code points whose runs overlap and whose lists are not canonical, and a list that ends too
early. -/
theorem combine_exact_of_overlap :
    let a : Alphabet := ⟨0, 9⟩
    let k : CharClass := ⟨[⟨1, false⟩, ⟨3, true⟩, ⟨5, true⟩, ⟨9, false⟩]⟩
    let l : CharClass := ⟨[⟨3, false⟩, ⟨7, true⟩, ⟨9, false⟩]⟩
    let short : CharClass := ⟨[⟨4, true⟩]⟩
    (∃ m, combine a xor k l = .ok m ∧ WellFormed a m ∧ m.isCanonical = true ∧
      ∀ c ≤ a.max, m.contains c = xor (k.contains c) (l.contains c)) ∧
      combine a xor k short = .error .openEnded := by
  intro a k l short
  have hk : WellFormed a k := ⟨by decide, by decide, rfl⟩
  have hl : WellFormed a l := ⟨by decide, by decide, rfl⟩
  have hshort : Ascending short.points := by decide
  refine ⟨(combine_exact a xor k l).1 hk hl, ((combine_exact a xor k short).2 hk.ascending hshort _).mpr ⟨rfl, ?_⟩⟩
  exact .inr (.inr ⟨9, 4, rfl, rfl, by decide⟩)

end Transducer.CharClass
