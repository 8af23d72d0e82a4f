import Mathlib.Data.List.Forall2
import Transducer.Proofs.Program.Meaning
import Transducer.Proofs.Program.Totality

/-!
# Folding keeps the meaning

`Table.Denotes a t re f` says that the value `re` refers to names of the table only, and that its meaning is `f` in
every solution of the table. Whatever the builder makes of values that denote something, literals that are joined,
classes that are merged or copies that are lined up, denotes what the syntax says.
-/

namespace Transducer

open scoped Pointwise

namespace Transduction

@[simp]
theorem literal_nil : literal [] = 1 := rfl

theorem literal_append (cs ds : List CodePoint) : literal (cs ++ ds) = literal cs * literal ds := by
  rw [literal, literal, literal, Set.singleton_mul_singleton, FreeMonoid.ofList_append, Prod.mk_mul_mk, one_mul]

/-- Some copies and then optional ones are a repetition between two bounds. -/
theorem pow_mul_optional (x : Transduction) (m j : ℕ) :
    x ^ m * (1 ∪ x) ^ j = ⋃ k ∈ Set.Icc m (m + j), x ^ k := by
  induction j with
  | zero => simp
  | succ j ih =>
      have hsucc : x ^ m * (1 ∪ x) ^ (j + 1) = (⋃ k ∈ Set.Icc m (m + j), x ^ k) * (1 ∪ x) := by
        rw [pow_succ, ← mul_assoc, ih]
      rw [hsucc, Set.mul_union, mul_one]
      apply Set.Subset.antisymm
      · rintro p (hp | hp)
        · obtain ⟨k, hk, hp⟩ := Set.mem_iUnion₂.mp hp
          exact Set.mem_iUnion₂.mpr ⟨k, ⟨hk.1, Nat.le_succ_of_le hk.2⟩, hp⟩
        · rw [Set.iUnion₂_mul] at hp
          obtain ⟨k, hk, hp⟩ := Set.mem_iUnion₂.mp hp
          rw [← pow_succ] at hp
          exact Set.mem_iUnion₂.mpr ⟨k + 1, ⟨Nat.le_succ_of_le hk.1, Nat.succ_le_succ hk.2⟩, hp⟩
      · intro p hp
        obtain ⟨k, hk, hp⟩ := Set.mem_iUnion₂.mp hp
        by_cases hlast : k = m + j + 1
        · -- Only the last power needs the copy that was added.
          right
          rw [Set.iUnion₂_mul]
          rw [hlast, pow_succ] at hp
          exact Set.mem_iUnion₂.mpr ⟨m + j, ⟨Nat.le_add_right m j, le_rfl⟩, hp⟩
        · left
          have hle : k ≤ m + j := Nat.le_of_lt_succ (lt_of_le_of_ne hk.2 hlast)
          exact Set.mem_iUnion₂.mpr ⟨k, ⟨hk.1, hle⟩, hp⟩

theorem repeated_eq (x : Transduction) {m n : ℕ} (h : ¬ (n = 0 ∨ n < m)) :
    x.repeated m n = x ^ m * (1 ∪ x) ^ (n - m) := by
  have hle : m + (n - m) = n := Nat.add_sub_of_le (Nat.le_of_not_lt fun hlt => h (.inr hlt))
  rw [repeated, if_neg h, pow_mul_optional, hle]

end Transduction

namespace Re

variable {a : Alphabet} {env : Env}

theorem meaning_of_asStr? {re : Re} {cs : List CodePoint} (h : re.asStr? = some cs) :
    re.meaning a env = .literal cs := by
  cases re with
  | char c => cases h; rfl
  | str ds => cases h; rfl
  | _ => cases h

@[simp]
theorem meaning_literal (cs : List CodePoint) : (literal cs).meaning a env = .literal cs :=
  meaning_of_asStr? (asStr?_literal cs)

theorem references_of_isStrLike {re : Re} (h : re.isStrLike = true) : re.references = [] := by
  cases re <;> first | rfl | cases h

theorem references_of_isSetLike {re : Re} (h : re.isSetLike = true) : re.references = [] := by
  cases re <;> first | rfl | cases h

theorem mem_meaning_set {k : CharClass} {p : FreeMonoid CodePoint × FreeMonoid CodePoint} :
    p ∈ (set k).meaning a env ↔ ∃ c, a.holds c = true ∧ k.contains c = true ∧ p = (FreeMonoid.of c, 1) := Iff.rfl

theorem meaning_join (l r : Re) : (l.join r).meaning a env = l.meaning a env * r.meaning a env := by
  unfold join
  split
  · rename_i cs ds hl hr
    rw [meaning_literal, meaning_of_asStr? hl, meaning_of_asStr? hr, Transduction.literal_append]
  · rfl

theorem mem_references_join {l r : Re} {name : String} (h : name ∈ (l.join r).references) :
    name ∈ l.references ∨ name ∈ r.references := by
  unfold join at h
  split at h
  · rename_i cs ds _ _
    have hlike : (literal (cs ++ ds)).isStrLike = true := by rw [isStrLike_eq, asStr?_literal]; rfl
    rw [references_of_isStrLike hlike] at h
    cases h
  · rw [references_concat] at h
    exact List.mem_append.mp h

end Re

namespace Table

/-- The name has a value. -/
def Binds (t : Table Re) (name : String) : Prop := ∃ re, t.get? name = some re

/-- All that is bound keeps its value. -/
def Grows (t t' : Table Re) : Prop := ∀ name re, t.get? name = some re → t'.get? name = some re

structure Denotes (a : Alphabet) (t : Table Re) (re : Re) (f : Env → Transduction) : Prop where
  wellFormed : re.WellFormed a
  bound : ∀ name ∈ re.references, t.Binds name
  meaning_eq : ∀ env, t.Solves a env → re.meaning a env = f env

variable {a : Alphabet} {t t' : Table Re} {l r re : Re} {f g : Env → Transduction}

theorem Grows.refl (t : Table Re) : t.Grows t := fun _ _ h => h

theorem Grows.trans {t'' : Table Re} (h : t.Grows t') (h' : t'.Grows t'') : t.Grows t'' :=
  fun name re hget => h' name re (h name re hget)

theorem Grows.binds (h : t.Grows t') {name : String} (hname : t.Binds name) : t'.Binds name := by
  obtain ⟨re, hget⟩ := hname
  exact ⟨re, h name re hget⟩

theorem Grows.solves (h : t.Grows t') {env : Env} (henv : t'.Solves a env) : t.Solves a env :=
  fun name re hget => henv name re (h name re hget)

theorem grows_insert {name : String} (h : t.get? name = none) (re : Re) : t.Grows (t.insert name re) := by
  intro other re' hget
  rw [get?_insert_of_ne]
  · exact hget
  · rintro rfl
    rw [h] at hget
    cases hget

theorem binds_insert {name other : String} (h : (t.insert name re).Binds other) : name = other ∨ t.Binds other := by
  obtain ⟨re', hget⟩ := h
  rw [get?_insert] at hget
  split at hget
  · rename_i hname
    exact .inl hname
  · exact .inr ⟨re', hget⟩

namespace Denotes

theorem mono (h : t.Denotes a re f) (hgrows : t.Grows t') : t'.Denotes a re f where
  wellFormed := h.wellFormed
  bound name hname := hgrows.binds (h.bound name hname)
  meaning_eq env henv := h.meaning_eq env (hgrows.solves henv)

theorem congr (h : t.Denotes a re f) (hfg : ∀ env, f env = g env) : t.Denotes a re g :=
  ⟨h.wellFormed, h.bound, fun env henv => (h.meaning_eq env henv).trans (hfg env)⟩

theorem of_asStr? {cs : List CodePoint} (h : re.asStr? = some cs) : t.Denotes a re fun _ => .literal cs where
  wellFormed k hk := by rw [hk] at h; cases h
  bound name hname := by
    have hlike : re.isStrLike = true := by rw [Re.isStrLike_eq, h]; rfl
    rw [Re.references_of_isStrLike hlike] at hname
    cases hname
  meaning_eq env _ := Re.meaning_of_asStr? h

/-- The meaning of a literal is its text in all environments, if it is solvable at all. -/
theorem literal_eq {cs : List CodePoint} (h : t.Denotes a re f) (hcs : re.asStr? = some cs) {env : Env}
    (henv : t.Solves a env) : f env = .literal cs := by
  rw [← h.meaning_eq env henv, Re.meaning_of_asStr? hcs]

theorem var {name : String} (h : t.Binds name) : t.Denotes a (.var name) fun env => env name where
  wellFormed := Re.wellFormed_of_not_isSetLike rfl
  bound other hother := by rwa [List.mem_singleton.mp hother]
  meaning_eq _ _ := rfl

theorem named {name : String} (h : t.Denotes a re f) (hget : t.get? name = some re) : t.Denotes a (.var name) f where
  wellFormed := Re.wellFormed_of_not_isSetLike rfl
  bound other hother := by
    rw [List.mem_singleton.mp hother]
    exact ⟨re, hget⟩
  meaning_eq env henv := (henv name re hget).trans (h.meaning_eq env henv)

theorem join (hl : t.Denotes a l f) (hr : t.Denotes a r g) : t.Denotes a (l.join r) fun env => f env * g env where
  wellFormed := Builder.wellFormed_join l r
  bound name hname := (Re.mem_references_join hname).elim (hl.bound name) (hr.bound name)
  meaning_eq env henv := by rw [Re.meaning_join, hl.meaning_eq env henv, hr.meaning_eq env henv]

theorem node {node : Re → Re → Re} {op : Transduction → Transduction → Transduction} (hl : t.Denotes a l f)
    (hr : t.Denotes a r g) (hset : (node l r).isSetLike = false)
    (hreferences : (node l r).references = l.references ++ r.references)
    (hmeaning : ∀ env, (node l r).meaning a env = op (l.meaning a env) (r.meaning a env)) :
    t.Denotes a (node l r) fun env => op (f env) (g env) where
  wellFormed := Re.wellFormed_of_not_isSetLike hset
  bound name hname := by
    rw [hreferences] at hname
    exact (List.mem_append.mp hname).elim (hl.bound name) (hr.bound name)
  meaning_eq env henv := by rw [hmeaning, hl.meaning_eq env henv, hr.meaning_eq env henv]

theorem kleene (h : t.Denotes a re f) (q : Quantifier) : t.Denotes a (.kleene re q) fun env => (f env).closure q where
  wellFormed := Re.wellFormed_of_not_isSetLike rfl
  bound := h.bound
  meaning_eq env henv := by rw [Re.meaning, h.meaning_eq env henv]

theorem output (h : t.Denotes a re f) (cs : List CodePoint) :
    t.Denotes a (.output re cs) fun env => (f env).output (.literal cs) where
  wellFormed := Re.wellFormed_of_not_isSetLike rfl
  bound := h.bound
  meaning_eq env henv := by rw [Re.meaning, h.meaning_eq env henv]

end Denotes

/-- Values that denote some meanings, one by one. -/
def DenotesAll (a : Alphabet) (t : Table Re) : List Re → List (Env → Transduction) → Prop :=
  List.Forall₂ fun re f => t.Denotes a re f

/-! ### Juxtapositions -/

variable {res : List Re} {fs : List (Env → Transduction)}

theorem Denotes.foldl_join (h : t.Denotes a re f) (hres : t.DenotesAll a res fs) :
    t.Denotes a (res.foldl Re.join re) fun env => f env * (fs.map fun g => g env).prod := by
  induction hres generalizing re f with
  | nil => exact h.congr fun env => (mul_one (f env)).symm
  | cons hr _ ih => exact (ih (h.join hr)).congr fun env => mul_assoc _ _ _

theorem DenotesAll.fold (h : t.DenotesAll a res fs) (hne : res ≠ []) :
    ∃ re, Folder.fold res = some re ∧ t.Denotes a re fun env => (fs.map fun g => g env).prod := by
  cases h with
  | nil => exact absurd rfl hne
  | cons hr hres => exact ⟨_, Folder.fold_cons _ _, hr.foldl_join hres⟩

theorem Denotes.replicate (h : t.Denotes a re f) (n : Nat) :
    t.DenotesAll a (List.replicate n re) (List.replicate n f) := by
  induction n with
  | zero => exact .nil
  | succ n ih => exact .cons h ih

theorem Denotes.copies (h : t.Denotes a re f) {m n : Nat} (htried : ¬ (n = 0 ∨ n < m)) :
    ∃ re', Builder.copies re m n = some re' ∧ t.Denotes a re' fun env => (f env).repeated m n := by
  have hall : t.DenotesAll a (List.replicate m re ++ List.replicate (n - m) (.kleene re .zeroOrOne))
      (List.replicate m f ++ List.replicate (n - m) fun env => (f env).closure .zeroOrOne) :=
    List.rel_append (h.replicate m) ((h.kleene .zeroOrOne).replicate (n - m))
  have hne : List.replicate m re ++ List.replicate (n - m) (.kleene re .zeroOrOne) ≠ [] := by
    intro hnil
    have hlength := congrArg List.length hnil
    simp only [List.length_append, List.length_replicate, List.length_nil] at hlength
    omega
  obtain ⟨re', hfold, hre'⟩ := hall.fold hne
  refine ⟨re', hfold, hre'.congr fun env => ?_⟩
  rw [List.map_append, List.map_replicate, List.map_replicate, List.prod_append, List.prod_replicate,
    List.prod_replicate, Transduction.repeated_eq _ htried]
  rfl

/-! ### Chains -/

theorem denotes_set {k : CharClass} (hwell : CharClass.WellFormed a k)
    (h : ∀ env, t.Solves a env → (Re.set k).meaning a env = f env) : t.Denotes a (.set k) f := by
  refine ⟨fun k' hk' => ?_, fun name hname => ?_, h⟩
  · cases hk'
    exact hwell
  · cases hname

theorem denotes_of_mem_none : ∀ k ∈ (none : Option CharClass), t.Denotes a (.set k) f := by
  intro k hk
  cases hk

theorem Denotes.setOf (h : t.Denotes a re f) :
    Returns (Builder.setOf a re) fun value => ∀ k ∈ value, t.Denotes a (.set k) f := by
  cases re with
  | set k =>
      refine .ok fun k' hk' => ?_
      cases hk'
      exact h
  | char c =>
      simp only [Builder.setOf, Re.asSet]
      split
      · rename_i hc
        obtain ⟨k, hk, hwell, hcontains⟩ := CharClass.singleton_spec hc
        rw [hk]
        refine .ok fun k' hk' => ?_
        cases hk'
        refine denotes_set hwell fun env henv => ?_
        rw [← h.meaning_eq env henv]
        ext p
        rw [Re.mem_meaning_set]
        constructor
        · rintro ⟨d, hd, hmember, rfl⟩
          rw [hcontains d hd, decide_eq_true_eq] at hmember
          rw [hmember]
          rfl
        · intro hp
          refine ⟨c, hc, ?_, hp⟩
          rw [hcontains c hc]
          exact decide_eq_true rfl
      · exact .ok denotes_of_mem_none
  | _ => exact .ok denotes_of_mem_none

theorem Denotes.setPair (hl : t.Denotes a l f) (hr : t.Denotes a r g) :
    Returns (Builder.setPair a l r) fun pair =>
      ∀ k ∈ pair, t.Denotes a (.set k.1) f ∧ t.Denotes a (.set k.2) g := by
  refine hl.setOf.bind fun left hleft => ?_
  cases left with
  | none =>
      refine .ok fun _ hk => ?_
      cases hk
  | some k =>
      refine hr.setOf.bind fun right hright => .ok fun pair hpair => ?_
      obtain ⟨m, hm, rfl⟩ := Option.map_eq_some_iff.mp hpair
      exact ⟨hleft k rfl, hright m hm⟩

/-- Classes combine like the relations they denote. -/
theorem Denotes.foldSets {node : Re → Re → Re} {op : Transduction → Transduction → Transduction}
    {member : Bool → Bool → Bool} (hl : t.Denotes a l f) (hr : t.Denotes a r g)
    (hnode : t.Denotes a (node l r) fun env => op (f env) (g env))
    (hop : ∀ k m n : CharClass, (∀ c, a.holds c = true → n.contains c = member (k.contains c) (m.contains c)) →
      ∀ env, (Re.set n).meaning a env = op ((Re.set k).meaning a env) ((Re.set m).meaning a env)) :
    Returns (Builder.foldSets a (CharClass.combine a member) node l r) fun re =>
      t.Denotes a re fun env => op (f env) (g env) := by
  refine (hl.setPair hr).bind fun pair hpair => ?_
  cases pair with
  | none => exact .ok hnode
  | some pair =>
      obtain ⟨hk, hm⟩ := hpair pair rfl
      obtain ⟨folded, hfolded, hwell, hcontains⟩ :=
        CharClass.WellFormed.combine member (hk.wellFormed _ rfl) (hm.wellFormed _ rfl)
      simp only [hfolded]
      refine .ok (denotes_set hwell fun env henv => ?_)
      rw [hop pair.1 pair.2 folded, hk.meaning_eq env henv, hm.meaning_eq env henv]
      intro c hc
      simp only [Alphabet.holds, Bool.and_eq_true, decide_eq_true_eq] at hc
      exact hcontains c hc.2

theorem Denotes.combine (op : ChainOp) (hl : t.Denotes a l f) (hr : t.Denotes a r g) :
    Returns (Builder.combine a op l r) fun re => t.Denotes a re fun env => .chained op (f env) (g env) := by
  cases op with
  | union =>
      refine hl.foldSets hr (hl.node hr rfl (Re.references_union l r) fun env => rfl) fun k m n hn env => ?_
      ext p
      simp only [Transduction.chained, Set.mem_union, Re.mem_meaning_set]
      constructor
      · rintro ⟨c, hc, hmember, rfl⟩
        rw [hn c hc, Bool.or_eq_true] at hmember
        exact hmember.imp (fun hk => ⟨c, hc, hk, rfl⟩) fun hm => ⟨c, hc, hm, rfl⟩
      · rintro (⟨c, hc, hk, rfl⟩ | ⟨c, hc, hm, rfl⟩)
        · exact ⟨c, hc, by rw [hn c hc, hk, Bool.true_or], rfl⟩
        · exact ⟨c, hc, by rw [hn c hc, hm, Bool.or_true], rfl⟩
  | diff =>
      refine hl.foldSets hr (hl.node hr rfl (Re.references_diff l r) fun env => rfl) fun k m n hn env => ?_
      ext p
      simp only [Transduction.chained, Set.mem_sdiff, Re.mem_meaning_set]
      constructor
      · rintro ⟨c, hc, hmember, rfl⟩
        rw [hn c hc, Bool.and_eq_true, Bool.not_eq_true'] at hmember
        refine ⟨⟨c, hc, hmember.1, rfl⟩, ?_⟩
        rintro ⟨d, -, hd, heq⟩
        rw [← FreeMonoid.of_injective (Prod.mk.inj heq).1, hmember.2] at hd
        cases hd
      · rintro ⟨⟨c, hc, hk, rfl⟩, hm⟩
        refine ⟨c, hc, ?_, rfl⟩
        have hm' : m.contains c = false := Bool.eq_false_iff.mpr fun hmember => hm ⟨c, hc, hmember, rfl⟩
        rw [hn c hc, hk, hm']
        rfl
  | compose => exact .ok (hl.node hr rfl (Re.references_compose l r) fun env => rfl)

theorem Denotes.foldlM_combine (op : ChainOp) (h : t.Denotes a re f) (hres : t.DenotesAll a res fs) :
    Returns (res.foldlM (Builder.combine a op) re) fun folded =>
      t.Denotes a folded fun env => (fs.map fun g => g env).foldl (.chained op) (f env) := by
  induction hres generalizing re f with
  | nil => exact .ok h
  | cons hr _ ih => exact (h.combine op hr).bind fun folded hfolded => ih hfolded

theorem DenotesAll.foldChain (op : ChainOp) (h : t.DenotesAll a res fs) (hne : res ≠ []) :
    Returns (Builder.foldChain a op res) fun value =>
      ∃ re, value = some re ∧ t.Denotes a re fun env => .chain op (fs.map fun g => g env) := by
  cases h with
  | nil => exact absurd rfl hne
  | cons hr hres => exact (hr.foldlM_combine op hres).map fun folded hfolded => ⟨folded, rfl, hfolded⟩

end Table

end Transducer
