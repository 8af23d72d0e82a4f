import Mathlib.Order.Bounds.Defs
import Transducer.Proofs.Word.Views
import Transducer.Word.Order

/-!
# Comparing words

The two orders, the common length and the prefix test go through two words each in its own way. What they find is told
by the place at which the words part: up to it the words are alike, and there they differ or one of them ends. This
place is the common length, it decides the lexicographic order, and it lies at the end of a word if and only if the word
is a beginning of the other one.
-/

namespace Transducer.Word

/-! ### Where lists part -/

/-- The lists are alike up to `k`, and there they differ or one of them ends. -/
inductive PartAt : List CodePoint → List CodePoint → Nat → Prop where
  | leftEnds (ds : List CodePoint) : PartAt [] ds 0
  | rightEnds (cs : List CodePoint) : PartAt cs [] 0
  | differ {c d : CodePoint} (h : c ≠ d) (cs ds : List CodePoint) : PartAt (c :: cs) (d :: ds) 0
  | alike {cs ds : List CodePoint} {k : Nat} (c : CodePoint) (h : PartAt cs ds k) : PartAt (c :: cs) (c :: ds) (k + 1)

section Lists

variable {cs ds : List CodePoint} {k : Nat}

theorem partAt_zip (cs ds : List CodePoint) : PartAt cs ds ((cs.zip ds).takeWhile fun p => p.1 == p.2).length := by
  induction cs generalizing ds with
  | nil => exact .leftEnds ds
  | cons c cs ih =>
      cases ds with
      | nil => exact .rightEnds (c :: cs)
      | cons d ds =>
          by_cases hcd : c = d
          · subst hcd
            rw [List.zip_cons_cons, List.takeWhile_cons_of_pos (by simp), List.length_cons]
            exact .alike c (ih ds)
          · rw [List.zip_cons_cons, List.takeWhile_cons_of_neg (by simpa using hcd)]
            exact .differ hcd cs ds

theorem PartAt.le_left (h : PartAt cs ds k) : k ≤ cs.length := by
  induction h with
  | leftEnds => exact Nat.le_refl 0
  | rightEnds => exact Nat.zero_le _
  | differ => exact Nat.zero_le _
  | alike c _ ih => exact Nat.succ_le_succ ih

theorem PartAt.le_right (h : PartAt cs ds k) : k ≤ ds.length := by
  induction h with
  | leftEnds => exact Nat.zero_le _
  | rightEnds => exact Nat.le_refl 0
  | differ => exact Nat.zero_le _
  | alike c _ ih => exact Nat.succ_le_succ ih

theorem PartAt.getElem?_eq (h : PartAt cs ds k) {i : Nat} (hi : i < k) : cs[i]? = ds[i]? := by
  induction h generalizing i with
  | leftEnds => cases hi
  | rightEnds => cases hi
  | differ => cases hi
  | alike c _ ih =>
      cases i with
      | zero => rfl
      | succ i => exact ih (Nat.lt_of_succ_lt_succ hi)

theorem PartAt.le_of_forall (h : PartAt cs ds k) {j : Nat} (hleft : j ≤ cs.length) (hright : j ≤ ds.length)
    (hsame : ∀ i < j, cs[i]? = ds[i]?) : j ≤ k := by
  induction h generalizing j with
  | leftEnds => exact hleft
  | rightEnds => exact hright
  | differ hne =>
      apply Nat.le_of_not_lt
      intro hj
      exact hne (Option.some.inj (hsame 0 hj))
  | alike c _ ih =>
      cases j with
      | zero => exact Nat.zero_le _
      | succ j =>
          apply Nat.succ_le_succ
          apply ih (Nat.le_of_succ_le_succ hleft) (Nat.le_of_succ_le_succ hright)
          intro i hi
          exact hsame (i + 1) (Nat.succ_lt_succ hi)

/-- The order is decided where the lists part. -/
theorem PartAt.compare_eq (h : PartAt cs ds k) :
    compare cs ds = match cs[k]?, ds[k]? with
      | some c, some d => compare c d
      | _, _ => compare cs.length ds.length := by
  induction h with
  | leftEnds ds =>
      cases ds with
      | nil => rfl
      | cons d ds =>
          simp only [List.getElem?_nil, List.compare_nil_cons, List.length_nil, List.length_cons]
          exact (Nat.compare_eq_lt.mpr (Nat.succ_pos _)).symm
  | rightEnds cs =>
      cases cs with
      | nil => rfl
      | cons c cs =>
          simp only [List.getElem?_nil, List.compare_cons_nil, List.length_nil, List.length_cons]
          exact (Nat.compare_eq_gt.mpr (Nat.succ_pos _)).symm
  | @differ c d hne cs ds =>
      simp only [List.getElem?_cons_zero, List.compare_cons_cons]
      cases hcompare : compare c d with
      | lt => rfl
      | eq => exact absurd (Nat.compare_eq_eq.mp hcompare) hne
      | gt => rfl
  | alike c _ ih =>
      have hlengths (m n : Nat) : compare (m + 1) (n + 1) = compare m n := by
        simp only [Nat.compare_eq_ite_lt, Nat.add_lt_add_iff_right]
      simp only [List.compare_cons_cons, Std.ReflCmp.compare_self, Ordering.eq_then, List.getElem?_cons_succ,
        List.length_cons, hlengths]
      exact ih

end Lists

/-! ### Words -/

/-- Both words reach to `k`, and below it they are alike. -/
structure AlikeUpTo (v w : Word) (k : Nat) : Prop where
  le_left : k ≤ v.length
  le_right : k ≤ w.length
  get?_eq : ∀ i < k, v.get? i = w.get? i

variable {v w : Word}

theorem partAt_commonLength (v w : Word) : PartAt v.toList w.toList (commonLength v w) := partAt_zip v.toList w.toList

theorem Sound.get?_eq (hw : w.Sound) (i : Nat) : w.get? i = w.toList[i]? := by
  have hstop := hw.stop_le
  rw [toList, Array.getElem?_toList, Array.getElem?_extract, Nat.min_eq_left hstop]
  rfl

theorem isGreatest_commonLength (hv : v.Sound) (hw : w.Sound) :
    IsGreatest {k | AlikeUpTo v w k} (commonLength v w) := by
  have hparted := partAt_commonLength v w
  constructor
  · refine ⟨hv.length_toList ▸ hparted.le_left, hw.length_toList ▸ hparted.le_right, fun i hi => ?_⟩
    rw [hv.get?_eq, hw.get?_eq]
    exact hparted.getElem?_eq hi
  · intro k hk
    apply hparted.le_of_forall
    · rw [hv.length_toList]
      exact hk.le_left
    · rw [hw.length_toList]
      exact hk.le_right
    · intro i hi
      rw [← hv.get?_eq, ← hw.get?_eq]
      exact hk.get?_eq i hi

theorem lexCompare_eq (hv : v.Sound) (hw : w.Sound) :
    lexCompare v w = match v.get? (commonLength v w), w.get? (commonLength v w) with
      | some c, some d => compare c d
      | _, _ => compare v.length w.length := by
  rw [hv.get?_eq, hw.get?_eq, ← hv.length_toList, ← hw.length_toList]
  exact (partAt_commonLength v w).compare_eq

theorem agreesFrom_iff (offset : Nat) (v w : Word) :
    agreesFrom offset v w = true ↔
      v.length ≤ w.length ∧ ∀ i, offset ≤ i → i < v.length → v.get? i = w.get? i := by
  simp only [agreesFrom, Bool.and_eq_true, decide_eq_true_iff, List.all_eq_true, List.mem_range'_1, beq_iff_eq]
  constructor
  · rintro ⟨hle, hall⟩
    exact ⟨hle, fun i hlow hhigh => hall i ⟨hlow, by omega⟩⟩
  · rintro ⟨hle, hall⟩
    exact ⟨hle, fun i hi => hall i hi.1 (by omega)⟩

theorem agreesFrom_zero_iff (v w : Word) : agreesFrom 0 v w = true ↔ AlikeUpTo v w v.length := by
  rw [agreesFrom_iff]
  constructor
  · rintro ⟨hle, hall⟩
    exact ⟨Nat.le_refl _, hle, fun i hi => hall i (Nat.zero_le i) hi⟩
  · intro h
    exact ⟨h.le_right, fun i _ hi => h.get?_eq i hi⟩

/-- A word is a beginning of another one if and only if they part at its end. -/
theorem agreesFrom_zero_iff_commonLength (hv : v.Sound) (hw : w.Sound) :
    agreesFrom 0 v w = true ↔ commonLength v w = v.length := by
  have hgreatest := isGreatest_commonLength hv hw
  rw [agreesFrom_zero_iff]
  constructor
  · intro halike
    exact Nat.le_antisymm hgreatest.1.le_left (hgreatest.2 halike)
  · intro hend
    exact hend ▸ hgreatest.1

/-- What the words have in common may be left out of the test. -/
theorem agreesFrom_eq_zero (hv : v.Sound) (hw : w.Sound) {k : Nat} (hk : k ≤ commonLength v w) :
    agreesFrom k v w = agreesFrom 0 v w := by
  have hbelow := (isGreatest_commonLength hv hw).1.get?_eq
  rw [Bool.eq_iff_iff, agreesFrom_iff, agreesFrom_iff]
  refine and_congr_right fun _ => ⟨fun hall i _ hi => ?_, fun hall i _ hi => hall i (Nat.zero_le i) hi⟩
  by_cases hik : i < k
  · exact hbelow i (Nat.lt_of_lt_of_le hik hk)
  · exact hall i (Nat.le_of_not_lt hik) hi

/-! ### Orders -/

/-- The comparison is a total order on contents. A word that is not sound can differ in its length from another one with
the same content, so only sound words that are equal compare as equal. -/
structure Orders (cmp : Word → Word → Ordering) : Prop where
  refl : ∀ v, (cmp v v).isLE = true
  antisymm : ∀ v w, (cmp v w).isLE = true → (cmp w v).isLE = true → (v == w) = true
  trans : ∀ u v w, (cmp u v).isLE = true → (cmp v w).isLE = true → (cmp u w).isLE = true
  total : ∀ v w, (cmp v w).isLE = true ∨ (cmp w v).isLE = true
  eq_iff : ∀ v w, v.Sound → w.Sound → (cmp v w = .eq ↔ (v == w) = true)

instance : Std.TransCmp lexCompare := inferInstanceAs (Std.TransCmp (compareOn toList))

instance : Std.TransCmp shortlexCompare :=
  inferInstanceAs (Std.TransCmp (compareLex (compareOn length) (compareOn toList)))

/-- It is enough to know when two words compare as equal. -/
theorem orders_of_transCmp {cmp : Word → Word → Ordering} [Std.TransCmp cmp]
    (hcontent : ∀ v w, cmp v w = .eq → (v == w) = true)
    (hequal : ∀ v w, v.Sound → w.Sound → (v == w) = true → cmp v w = .eq) : Orders cmp where
  refl v := Std.ReflCmp.isLE_rfl
  antisymm v w hvw hwv := hcontent v w (Std.OrientedCmp.isLE_antisymm hvw hwv)
  trans u v w huv hvw := Std.TransCmp.isLE_trans huv hvw
  total v w := by
    have hswap : cmp w v = (cmp v w).swap := Std.OrientedCmp.eq_swap
    rw [hswap]
    cases cmp v w with
    | lt => exact .inl rfl
    | eq => exact .inl rfl
    | gt => exact .inr rfl
  eq_iff v w hv hw := ⟨hcontent v w, hequal v w hv hw⟩

theorem orders_lexCompare : Orders lexCompare := by
  have heq (v w : Word) : lexCompare v w = .eq ↔ (v == w) = true := by
    rw [lexCompare, Std.compare_eq_iff_eq, beq_iff]
  exact orders_of_transCmp (fun v w => (heq v w).mp) fun v w _ _ => (heq v w).mpr

theorem orders_shortlexCompare : Orders shortlexCompare := by
  have heq (v w : Word) : shortlexCompare v w = .eq ↔ v.length = w.length ∧ v.toList = w.toList := by
    rw [shortlexCompare, Ordering.then_eq_eq, Std.compare_eq_iff_eq, Std.compare_eq_iff_eq]
  apply orders_of_transCmp
  · intro v w h
    exact beq_iff.mpr ((heq v w).mp h).2
  · intro v w hv hw h
    have hcontent := beq_iff.mp h
    rw [heq, ← hv.length_toList, ← hw.length_toList]
    exact ⟨congrArg List.length hcontent, hcontent⟩

/-- Comparisons of words are consistent. Lexicographic and shortlex order are total orders in which two words are equal if
and only if their contents are. The lexicographic one is decided at the common length, by the code points there or, if a
word ends there, by the lengths. The common length is the greatest one up to which both words are alike. One word is a
beginning of another one if and only if they are alike up to its length, and the test for it may start at any place up
to which they are known to be alike. -/
theorem comparisons_consistent :
    Orders lexCompare ∧ Orders shortlexCompare ∧
      ∀ v w : Word, v.Sound → w.Sound →
        (lexCompare v w = match v.get? (commonLength v w), w.get? (commonLength v w) with
          | some c, some d => compare c d
          | _, _ => compare v.length w.length) ∧
        IsGreatest {k | AlikeUpTo v w k} (commonLength v w) ∧
        (agreesFrom 0 v w = true ↔ commonLength v w = v.length) ∧
        ∀ k ≤ commonLength v w, agreesFrom k v w = agreesFrom 0 v w := by
  refine ⟨orders_lexCompare, orders_shortlexCompare, fun v w hv hw => ?_⟩
  exact ⟨lexCompare_eq hv hw, isGreatest_commonLength hv hw, agreesFrom_zero_iff_commonLength hv hw,
    fun k hk => agreesFrom_eq_zero hv hw hk⟩

/-- Two views of one buffer that part behind their first code point. -/
theorem comparisons_consistent_of_views :
    let v : Word := ⟨#[97, 98, 97, 99], 0, 2, none⟩
    let w : Word := ⟨#[97, 98, 97, 99], 2, 4, none⟩
    v.Sound ∧ w.Sound ∧ commonLength v w = 1 ∧ lexCompare v w = compare 98 99 ∧
      agreesFrom 1 v w = agreesFrom 0 v w ∧ agreesFrom 0 v w = false := by
  intro v w
  have hv : v.Sound := ⟨by decide, by decide, nofun⟩
  have hw : w.Sound := ⟨by decide, by decide, nofun⟩
  have hcommon : commonLength v w = 1 := by decide
  obtain ⟨-, -, hpairs⟩ := comparisons_consistent
  obtain ⟨hcompare, -, hends, hfrom⟩ := hpairs v w hv hw
  refine ⟨hv, hw, hcommon, hcompare, hfrom 1 (Nat.le_of_eq hcommon.symm), ?_⟩
  rw [← Bool.not_eq_true, hends, hcommon]
  decide

end Transducer.Word
