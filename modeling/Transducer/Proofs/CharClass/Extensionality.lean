import Transducer.Proofs.CharClass.Combination
import Transducer.Proofs.Returns

/-!
# Equal classes are equal lists

In a canonical list the flag changes behind every entry but the last, so the members of a class tell where its entries
lie: a class that is well-formed and canonical is determined by its members. The constructors make such classes, and
combinations keep them. Hence an equation between combinations of classes holds, list by list, as soon as it holds of
truth values.
-/

namespace Transducer.CharClass

variable {a : Alphabet}

/-! ### Canonical lists -/

/-- The list covers the code points from `low` to `high`, and its flags alternate. -/
structure Canonical (low high : CodePoint) (points : List Breakpoint) : Prop where
  ascending : Ascending points
  above : ∀ p ∈ points, low ≤ p.point
  ends : lastPoint points = some high
  alternates : isCanonical.alternates points = true

namespace Canonical

variable {low high : CodePoint} {p q : Breakpoint} {ps qs : List Breakpoint}

theorem point_le (h : Canonical low high (p :: ps)) : p.point ≤ high :=
  h.ascending.le_lastPoint h.ends p List.mem_cons_self

/-- The rest of a list covers what lies behind its first entry. -/
theorem tail (h : Canonical low high (p :: q :: ps)) : Canonical (p.point + 1) high (q :: ps) where
  ascending := h.ascending.of_cons
  above := fun _ hr => List.rel_of_pairwise_cons h.ascending hr
  ends := h.ends
  alternates := (Bool.and_eq_true_iff.mp h.alternates).2

theorem eq_nil_of_point_eq (h : Canonical low high (p :: ps)) (hp : p.point = high) : ps = [] := by
  cases ps with
  | nil => rfl
  | cons q ps =>
      have hpq : p.point < q.point := List.rel_of_pairwise_cons h.ascending List.mem_cons_self
      exact absurd hp (Nat.ne_of_lt (Nat.lt_of_lt_of_le hpq h.tail.point_le))

theorem flagAt_low (h : Canonical low high (p :: ps)) : flagAt low (p :: ps) = p.member :=
  if_pos (h.above p List.mem_cons_self)

/-- Behind an entry that is not the last one the flag changes. -/
theorem flagAt_behind (h : Canonical low high (p :: ps)) (hp : p.point < high) :
    flagAt (p.point + 1) (p :: ps) = !p.member := by
  cases ps with
  | nil => exact absurd (Option.some.inj h.ends) (Nat.ne_of_lt hp)
  | cons q ps =>
      have hdiffers : p.member ≠ q.member := bne_iff_ne.mp (Bool.and_eq_true_iff.mp h.alternates).1
      rw [flagAt_cons_of_not_le _ (Nat.not_succ_le_self _), h.tail.flagAt_low]
      exact Bool.eq_not_of_ne hdiffers.symm

/-- The first run of a list does not end before that of another one with the same flags. -/
theorem point_le_of_flagAt_eq (hp : Canonical low high (p :: ps)) (hq : Canonical low high (q :: qs))
    (h : ∀ c, low ≤ c → c ≤ high → flagAt c (p :: ps) = flagAt c (q :: qs)) : q.point ≤ p.point := by
  apply Nat.le_of_not_lt
  intro hlt
  have hlow : low ≤ p.point := hp.above p List.mem_cons_self
  have hhigh : p.point < high := Nat.lt_of_lt_of_le hlt hq.point_le
  -- Right behind the shorter run only one of the two flags has changed.
  have hfirst := h low (Nat.le_refl low) (Nat.le_trans hlow (Nat.le_of_lt hhigh))
  have hbehind := h (p.point + 1) (Nat.le_succ_of_le hlow) hhigh
  rw [hp.flagAt_low, hq.flagAt_low] at hfirst
  rw [hp.flagAt_behind hhigh, flagAt, if_pos (Nat.succ_le_of_lt hlt), hfirst] at hbehind
  simp at hbehind

/-- Canonical lists with the same flags are equal: so are their first entries, and so are the flags behind these. -/
theorem eq_of_flagAt_eq (hps : Canonical low high ps) (hqs : Canonical low high qs)
    (h : ∀ c, low ≤ c → c ≤ high → flagAt c ps = flagAt c qs) : ps = qs := by
  induction ps generalizing low qs with
  | nil => exact nomatch hps.ends
  | cons p ps ih =>
      cases qs with
      | nil => exact nomatch hqs.ends
      | cons q qs =>
          have hpoint : p.point = q.point := by
            apply Nat.le_antisymm
            · exact hqs.point_le_of_flagAt_eq hps fun c hlow hhigh => (h c hlow hhigh).symm
            · exact hps.point_le_of_flagAt_eq hqs h
          have hlow : low ≤ p.point := hps.above p List.mem_cons_self
          have hmember : p.member = q.member := by
            rw [← hps.flagAt_low, ← hqs.flagAt_low]
            exact h low (Nat.le_refl low) (Nat.le_trans hlow hps.point_le)
          have hfirst : p = q := by
            cases p
            cases q
            cases hpoint
            cases hmember
            rfl
          subst hfirst
          by_cases hlast : p.point = high
          · rw [hps.eq_nil_of_point_eq hlast, hqs.eq_nil_of_point_eq hlast]
          · cases ps with
            | nil => exact absurd (Option.some.inj hps.ends) hlast
            | cons p' ps =>
                cases qs with
                | nil => exact absurd (Option.some.inj hqs.ends) hlast
                | cons q' qs =>
                    congr 1
                    apply ih hps.tail hqs.tail
                    intro c hc hhigh
                    have hbehind : ¬ c ≤ p.point := Nat.not_le_of_lt hc
                    have hsame := h c (Nat.le_trans (Nat.le_succ_of_le hlow) hc) hhigh
                    rwa [flagAt_cons_of_not_le _ hbehind, flagAt_cons_of_not_le _ hbehind] at hsame

end Canonical

/-! ### Classes and their members -/

theorem holds_iff {c : CodePoint} : a.holds c = true ↔ a.min ≤ c ∧ c ≤ a.max := by
  rw [Alphabet.holds, Bool.and_eq_true, decide_eq_true_iff, decide_eq_true_iff]

/-- The class is the canonical one of the code points that satisfy a condition. -/
structure Represents (a : Alphabet) (k : CharClass) (p : CodePoint → Bool) : Prop where
  wellFormed : WellFormed a k
  canonical : k.isCanonical = true
  contains : ∀ c, a.holds c = true → k.contains c = p c

namespace Represents

variable {k l : CharClass} {p q : CodePoint → Bool}

theorem canonical_points (h : Represents a k p) : Canonical a.min a.max k.points :=
  ⟨h.wellFormed.ascending, h.wellFormed.above, h.wellFormed.ends, h.canonical⟩

theorem eq_iff (hk : Represents a k p) (hl : Represents a l q) : k = l ↔ ∀ c, a.holds c = true → p c = q c := by
  constructor
  · rintro rfl c hc
    rw [← hk.contains c hc, hl.contains c hc]
  · intro h
    have hpoints : k.points = l.points := by
      apply hk.canonical_points.eq_of_flagAt_eq hl.canonical_points
      intro c hmin hmax
      have hc : a.holds c = true := holds_iff.mpr ⟨hmin, hmax⟩
      rw [← contains_eq_flagAt hk.wellFormed.ascending, ← contains_eq_flagAt hl.wellFormed.ascending,
        hk.contains c hc, hl.contains c hc, h c hc]
    cases k
    cases l
    exact congrArg CharClass.mk hpoints

theorem combine (hk : Represents a k p) (hl : Represents a l q) (f : Bool → Bool → Bool) :
    Returns (CharClass.combine a f k l) fun m => Represents a m fun c => f (p c) (q c) := by
  obtain ⟨m, hm, hwell, hcontains⟩ := hk.wellFormed.combine f hl.wellFormed
  refine ⟨m, hm, hwell, isCanonical_of_combine hm, ?_⟩
  intro c hc
  rw [hcontains c (holds_iff.mp hc).2, hk.contains c hc, hl.contains c hc]

end Represents

theorem represents_empty (ha : a.min ≤ a.max) : Represents a (empty a) fun _ => false where
  wellFormed := ⟨List.pairwise_singleton _ _, List.forall_mem_singleton.mpr ha, rfl⟩
  canonical := rfl
  contains c hc := by
    rw [contains_eq_flagAt (k := empty a) (List.pairwise_singleton _ _)]
    exact if_pos (holds_iff.mp hc).2

theorem represents_interval {low high : CodePoint} (hlow : a.min ≤ low) (hle : low ≤ high) (hhigh : high ≤ a.max) :
    Returns (interval a low high) fun k => Represents a k fun c => decide (low ≤ c ∧ c ≤ high) := by
  refine ⟨_, interval_eq hlow hle hhigh, wellFormed_interval hlow hle hhigh, ?_, fun c hc => ?_⟩
  · rw [isCanonical, intervalPoints]
    split <;> split <;> rfl
  · exact contains_interval hlow hle hhigh hc

/-! ### Putting classes together -/

/-- A class of which only the bounds are given. -/
inductive Piece where
  | singleton (c : CodePoint)
  | interval (low high : CodePoint)

namespace Piece

def make (a : Alphabet) : Piece → Except Error CharClass
  | .singleton c => CharClass.singleton a c
  | .interval low high => CharClass.interval a low high

/-- The bounds are in order and lie in the alphabet. -/
def Inside (a : Alphabet) : Piece → Prop
  | .singleton c => a.holds c = true
  | .interval low high => a.min ≤ low ∧ low ≤ high ∧ high ≤ a.max

def covers (c : CodePoint) : Piece → Bool
  | .singleton d => decide (c = d)
  | .interval low high => decide (low ≤ c ∧ c ≤ high)

theorem represents {piece : Piece} (h : piece.Inside a) :
    Returns (piece.make a) fun k => Represents a k fun c => piece.covers c := by
  cases piece with
  | singleton c =>
      obtain ⟨hmin, hmax⟩ := holds_iff.mp h
      apply (represents_interval hmin (Nat.le_refl c) hmax).mono
      intro k hk
      refine ⟨hk.wellFormed, hk.canonical, fun d hd => ?_⟩
      rw [hk.contains d hd, covers, decide_eq_decide]
      constructor
      · rintro ⟨hcd, hdc⟩
        exact Nat.le_antisymm hdc hcd
      · rintro rfl
        exact ⟨Nat.le_refl _, Nat.le_refl _⟩
  | interval low high => exact represents_interval h.1 h.2.1 h.2.2

end Piece

/-- Combinations of classes, or of whatever `ι` stands for. -/
inductive Combination (ι : Type) where
  | leaf (i : ι)
  | empty
  | union (l r : Combination ι)
  | difference (l r : Combination ι)
  | combine (f : Bool → Bool → Bool) (l r : Combination ι)

namespace Combination

variable {ι : Type}

/-- The class that comes out, given how the leaves are made. -/
def eval (a : Alphabet) (make : ι → Except Error CharClass) : Combination ι → Except Error CharClass
  | .leaf i => make i
  | .empty => .ok (CharClass.empty a)
  | .union l r => do CharClass.union a (← l.eval a make) (← r.eval a make)
  | .difference l r => do CharClass.difference a (← l.eval a make) (← r.eval a make)
  | .combine f l r => do CharClass.combine a f (← l.eval a make) (← r.eval a make)

/-- The same combination of truth values. -/
def truth (v : ι → Bool) : Combination ι → Bool
  | .leaf i => v i
  | .empty => false
  | .union l r => l.truth v || r.truth v
  | .difference l r => l.truth v && !r.truth v
  | .combine f l r => f (l.truth v) (r.truth v)

def All (p : ι → Prop) : Combination ι → Prop
  | .leaf i => p i
  | .empty => True
  | .union l r | .difference l r | .combine _ l r => l.All p ∧ r.All p

/-- Both operands are made first, and then they are combined. -/
theorem represents_bind {x y : Except Error CharClass} {p q : CodePoint → Bool}
    (hx : Returns x fun k => Represents a k p) (hy : Returns y fun l => Represents a l q) (f : Bool → Bool → Bool) :
    Returns (x >>= fun k => y >>= fun l => CharClass.combine a f k l) fun m => Represents a m fun c => f (p c) (q c) := by
  apply hx.bind
  intro k hk
  apply hy.bind
  intro l hl
  exact hk.combine hl f

/-- What comes out of a combination has the members that the combination of truth values says. -/
theorem eval_represents (ha : a.min ≤ a.max) {make : ι → Except Error CharClass} {v : ι → CodePoint → Bool}
    {p : ι → Prop} (hmake : ∀ i, p i → Returns (make i) fun k => Represents a k (v i)) {t : Combination ι}
    (ht : t.All p) : Returns (t.eval a make) fun k => Represents a k fun c => t.truth fun i => v i c := by
  induction t with
  | leaf i => exact hmake i ht
  | empty => exact .ok (represents_empty ha)
  | union l r ihl ihr => exact represents_bind (ihl ht.1) (ihr ht.2) fun x y => x || y
  | difference l r ihl ihr => exact represents_bind (ihl ht.1) (ihr ht.2) fun x y => x && !y
  | combine f l r ihl ihr => exact represents_bind (ihl ht.1) (ihr ht.2) f

end Combination

/-- The class can be put together from pieces that lie in the alphabet. -/
def Made (a : Alphabet) (k : CharClass) : Prop :=
  ∃ t : Combination Piece, t.All (Piece.Inside a) ∧ t.eval a (Piece.make a) = .ok k

theorem Made.represents (ha : a.min ≤ a.max) {k : CharClass} (h : Made a k) : Represents a k k.contains := by
  obtain ⟨t, ht, hk⟩ := h
  have hrep := (t.eval_represents ha (fun _ => Piece.represents) ht).of_eq_ok hk
  exact ⟨hrep.wellFormed, hrep.canonical, fun _ _ => rfl⟩

/-- An equation that holds of truth values holds of classes. -/
theorem Made.eval_eq (ha : a.min ≤ a.max) {ι : Type} {lhs rhs : Combination ι} (h : ∀ v, lhs.truth v = rhs.truth v)
    {σ : ι → CharClass} (hσ : ∀ i, Made a (σ i)) : lhs.eval a (fun i => .ok (σ i)) = rhs.eval a fun i => .ok (σ i) := by
  have hleaf : ∀ i, True → Returns (.ok (σ i) : Except Error CharClass) fun k => Represents a k (σ i).contains :=
    fun i _ => .ok ((hσ i).represents ha)
  have hall (t : Combination ι) : t.All fun _ => True := by
    induction t with
    | leaf i => trivial
    | empty => trivial
    | union l r ihl ihr => exact ⟨ihl, ihr⟩
    | difference l r ihl ihr => exact ⟨ihl, ihr⟩
    | combine f l r ihl ihr => exact ⟨ihl, ihr⟩
  obtain ⟨k, hk, hkrep⟩ := lhs.eval_represents ha hleaf (hall lhs)
  obtain ⟨l, hl, hlrep⟩ := rhs.eval_represents ha hleaf (hall rhs)
  rw [hk, hl, (hkrep.eq_iff hlrep).mpr fun c _ => h _]

/-- Equality of classes is equality of sets. Over an alphabet that is not empty, every combination of pieces that lie
in the alphabet makes a class, well-formed and canonical, whose members are those that the combination says. Two
classes made in this way are the same list if and only if they have the same members. So all equations between
combinations that hold of truth values are plain equations between classes, among them the laws of a Boolean algebra
for union and difference. -/
theorem classes_are_sets {a : Alphabet} (ha : a.min ≤ a.max) :
    (∀ t : Combination Piece, t.All (Piece.Inside a) →
      ∃ k, t.eval a (Piece.make a) = .ok k ∧ WellFormed a k ∧ k.isCanonical = true ∧
        ∀ c, a.holds c = true → k.contains c = t.truth fun piece => piece.covers c) ∧
      (∀ k l, Made a k → Made a l → (k = l ↔ ∀ c, a.holds c = true → k.contains c = l.contains c)) ∧
      (∀ (ι : Type) (lhs rhs : Combination ι), (∀ v, lhs.truth v = rhs.truth v) → ∀ σ : ι → CharClass,
        (∀ i, Made a (σ i)) → lhs.eval a (fun i => .ok (σ i)) = rhs.eval a fun i => .ok (σ i)) ∧
      ∀ k l m, Made a k → Made a l → Made a m →
        union a k l = union a l k ∧
          (union a k l >>= fun kl => union a kl m) = (union a l m >>= fun lm => union a k lm) ∧
          union a k k = .ok k ∧ union a k (empty a) = .ok k ∧ difference a k k = .ok (empty a) ∧
          (union a l m >>= fun lm => difference a k lm) = (difference a k l >>= fun kl => difference a kl m) := by
  refine ⟨fun t ht => ?_, fun k l hk hl => ?_, fun ι lhs rhs h σ hσ => Made.eval_eq ha h hσ, fun k l m hk hl hm => ?_⟩
  · obtain ⟨k, hk, hrep⟩ := t.eval_represents ha (fun _ => Piece.represents) ht
    exact ⟨k, hk, hrep.wellFormed, hrep.canonical, hrep.contains⟩
  · exact (hk.represents ha).eq_iff (hl.represents ha)
  · let σ : Fin 3 → CharClass
      | 0 => k
      | 1 => l
      | 2 => m
    have hσ : ∀ i, Made a (σ i)
      | 0 => hk
      | 1 => hl
      | 2 => hm
    have law (lhs rhs : Combination (Fin 3)) (h : ∀ v, lhs.truth v = rhs.truth v) := Made.eval_eq ha h hσ
    refine ⟨law (.union (.leaf 0) (.leaf 1)) (.union (.leaf 1) (.leaf 0)) fun v => Bool.or_comm _ _,
      law (.union (.union (.leaf 0) (.leaf 1)) (.leaf 2)) (.union (.leaf 0) (.union (.leaf 1) (.leaf 2)))
        fun v => Bool.or_assoc _ _ _,
      law (.union (.leaf 0) (.leaf 0)) (.leaf 0) fun v => Bool.or_self _,
      law (.union (.leaf 0) .empty) (.leaf 0) fun v => Bool.or_false _,
      law (.difference (.leaf 0) (.leaf 0)) .empty fun v => Bool.and_not_self _,
      law (.difference (.leaf 0) (.union (.leaf 1) (.leaf 2)))
        (.difference (.difference (.leaf 0) (.leaf 1)) (.leaf 2)) fun v => ?_⟩
    simp only [Combination.truth, Bool.not_or, Bool.and_assoc]

/-- Two neighbours of ten code points, joined from their own classes and cut out of an interval. -/
theorem classes_are_sets_of_neighbours :
    let a : Alphabet := ⟨0, 9⟩
    let joined : Combination Piece := .union (.leaf (.singleton 3)) (.leaf (.singleton 2))
    let cut : Combination Piece := .difference (.leaf (.interval 0 3)) (.leaf (.interval 0 1))
    a.min ≤ a.max ∧ ∃ k l, joined.eval a (Piece.make a) = .ok k ∧ cut.eval a (Piece.make a) = .ok l ∧
      (k = l ↔ ∀ c, a.holds c = true → k.contains c = l.contains c) ∧ k = l ∧
      union a k (empty a) = .ok k ∧ difference a k k = .ok (empty a) := by
  intro a joined cut
  have ha : a.min ≤ a.max := by decide
  have hjoined : joined.All (Piece.Inside a) := ⟨rfl, rfl⟩
  have hcut : cut.All (Piece.Inside a) := ⟨⟨by decide, by decide, by decide⟩, ⟨by decide, by decide, by decide⟩⟩
  have hmade : Made a ⟨[⟨1, false⟩, ⟨3, true⟩, ⟨9, false⟩]⟩ := ⟨joined, hjoined, rfl⟩
  have hmade' : Made a ⟨[⟨1, false⟩, ⟨3, true⟩, ⟨9, false⟩]⟩ := ⟨cut, hcut, rfl⟩
  obtain ⟨-, hequal, -, hlaws⟩ := classes_are_sets ha
  obtain ⟨-, -, -, hunit, hself, -⟩ := hlaws _ _ _ hmade hmade' hmade
  exact ⟨ha, _, _, rfl, rfl, hequal _ _ hmade hmade', rfl, hunit, hself⟩

end Transducer.CharClass
