import Mathlib.Logic.Relation
import Transducer.Proofs.Program.Journal

/-!
# References do not go round in circles

A value that is not copied is referred to by its name, and the name stands for whatever is bound to it in the end. When
nothing is reported, a value refers to names written before it only. So a reference leads to an earlier write, unless
its name is written again: `x = 'a'*; x = x 'b';` is taken without a report, and the value of `x` refers to `x`. Apart
from such references there is no cycle, and a source that defines each name once and keeps off the names made up has
none at all.
-/

namespace Transducer

/-- The value of a name refers to another name. -/
def Table.Refers (t : Table Re) (m n : String) : Prop := ∃ re, t.get? m = some re ∧ n ∈ re.references

/-- Nothing leads back to itself. -/
def Acyclic {α : Type} (r : α → α → Prop) : Prop := ∀ x, ¬ Relation.TransGen r x x

theorem Acyclic.mono {α : Type} {r s : α → α → Prop} (h : Acyclic s) (himp : ∀ x y, r x y → s x y) : Acyclic r := by
  intro x hcycle
  exact h x (Relation.TransGen.mono himp x x hcycle)

theorem acyclic_of_rank {α : Type} {r : α → α → Prop} (rank : α → Nat) (h : ∀ x y, r x y → rank y < rank x) :
    Acyclic r := by
  have hdescends : ∀ x y, Relation.TransGen r x y → rank y < rank x := by
    intro x y hxy
    induction hxy with
    | single hedge => exact h _ _ hedge
    | tail _ hedge ih => exact Nat.lt_trans (h _ _ hedge) ih
  intro x hcycle
  exact Nat.lt_irrefl _ (hdescends x x hcycle)

namespace Builder

variable {m n name : String} {ws before after : List Write} {w : Write}

/-- The last value of `m` was written when `n` had been, and then or later `n` was written again. -/
def Rebinds (ws : List Write) (m n : String) : Prop :=
  ∃ before w after, ws = before ++ w :: after ∧ w.name = m ∧ m ∉ after.map Write.name ∧
    n ∈ before.map Write.name ∧ n ∈ (w :: after).map Write.name

/-- The number of writes up to the last one of a name. -/
def lastWrite (ws : List Write) (name : String) : Nat := (ws.reverse.dropWhile fun w => w.name != name).length

theorem lastWrite_append (hname : name ∉ after.map Write.name) :
    lastWrite (before ++ after) name = lastWrite before name := by
  have hskip : ∀ w ∈ after.reverse, (w.name != name) = true := by
    intro w hw
    refine bne_iff_ne.mpr fun heq => hname ?_
    rw [← heq]
    exact List.mem_map_of_mem (List.mem_reverse.mp hw)
  rw [lastWrite, lastWrite, List.reverse_append, List.dropWhile_append_of_pos hskip]

theorem lastWrite_le (ws : List Write) (name : String) : lastWrite ws name ≤ ws.length := by
  rw [lastWrite, ← ws.length_reverse]
  exact (List.dropWhile_sublist _).length_le

theorem lastWrite_concat (ws : List Write) (w : Write) : lastWrite (ws ++ [w]) w.name = ws.length + 1 := by
  have hstop : ¬ (w.name != w.name) = true := by rw [bne_self_eq_false]; decide
  rw [lastWrite, List.reverse_concat, List.dropWhile_cons, if_neg hstop, List.length_cons, List.length_reverse]

/-- A reference leads to an earlier write, unless its name is written again. -/
theorem lastWrite_lt (hgrounded : Grounded .empty ws) (hrefers : (replay .empty ws).Refers m n)
    (hkept : ¬ Rebinds ws m n) : lastWrite ws n < lastWrite ws m := by
  obtain ⟨re, hget, hn⟩ := hrefers
  obtain ⟨before, w, after, rfl, rfl, rfl, hlast⟩ := last_of_get?_replay hget
  have hbefore : n ∈ before.map Write.name := mem_of_mem_names_replay ((grounded_append.mp hgrounded).2.1 n hn)
  have hafter : n ∉ (w :: after).map Write.name := by
    intro hmem
    exact hkept ⟨before, w, after, rfl, rfl, hlast, hbefore, hmem⟩
  calc lastWrite (before ++ w :: after) n
    _ = lastWrite before n := lastWrite_append hafter
    _ < before.length + 1 := Nat.lt_succ_of_le (lastWrite_le before n)
    _ = lastWrite (before ++ [w]) w.name := (lastWrite_concat before w).symm
    _ = lastWrite (before ++ w :: after) w.name := by rw [List.append_cons before w after, lastWrite_append hlast]

theorem acyclic_replay (hgrounded : Grounded .empty ws) :
    Acyclic fun m n => (replay .empty ws).Refers m n ∧ ¬ Rebinds ws m n :=
  acyclic_of_rank (lastWrite ws) fun _ _ h => lastWrite_lt hgrounded h.1 h.2

theorem not_rebinds_of_nodup (hnodup : (ws.map Write.name).Nodup) : ¬ Rebinds ws m n := by
  rintro ⟨before, w, after, rfl, -, -, hbefore, hafter⟩
  rw [List.map_append] at hnodup
  exact (List.nodup_append.mp hnodup).2.2 n hbefore n hafter rfl

/-- As long as definitions keep off the names made up, a name is written again only if its definition is made again. -/
theorem Recorded.redefined {names : List String} {b b' : Builder} (h : Recorded names b ws b')
    (hplain : ∀ name ∈ names, Plain name) (hrebinds : Rebinds ws m n) :
    ∃ d, 2 ≤ names.count d ∧ (n = d ∨ ∃ k, n = syntheticName d k) := by
  obtain ⟨before, w, after, rfl, -, -, hbefore, hafter⟩ := hrebinds
  obtain ⟨u, hu, hun⟩ := List.mem_map.mp hbefore
  obtain ⟨v, hv, hvn⟩ := List.mem_map.mp hafter
  have howner := hplain _ (h.owner_mem (List.mem_append_left _ hu))
  have howner' := hplain _ (h.owner_mem (List.mem_append_right _ hv))
  have horigin : v.origin = u.origin := Origin.name_inj howner' howner (hvn.trans hun.symm)
  refine ⟨u.origin.owner, ?_, ?_⟩
  · have hfirst : 0 < (before.map Write.origin).count u.origin := List.count_pos_iff.mpr (List.mem_map_of_mem hu)
    have hsecond : 0 < ((w :: after).map Write.origin).count u.origin := by
      rw [← horigin]
      exact List.count_pos_iff.mpr (List.mem_map_of_mem hv)
    have hcount := h.count_le u.origin
    rw [List.map_append, List.count_append] at hcount
    omega
  · rw [← hun, Write.name]
    cases u.origin with
    | bound d => exact .inl rfl
    | hoisted d k => exact .inr ⟨k, rfl⟩

end Builder

open Builder

/-- In a compilation without diagnostics every cycle of references goes through one to a name that had been written
before the value that refers to it, and was written again with it or after it. If no name is written twice there is no
cycle. As long as the source keeps off the names made up, a name that is written again belongs to a definition that is
made again, so a source that defines each name once has no cycle. -/
theorem clean_program_acyclic {options : Options} {source : String} {c : Compilation}
    (hcompile : compile options source = .ok c) (hclean : c.diagnostics = []) :
    c.program.table = replay .empty c.journal ∧
      (Acyclic fun m n => c.program.table.Refers m n ∧ ¬ Rebinds c.journal m n) ∧
      ((c.journal.map Write.name).Nodup → Acyclic c.program.table.Refers) ∧
      ((∀ name ∈ definedNames c.root, Plain name) →
        (∀ m n, Rebinds c.journal m n →
          ∃ d, 2 ≤ (definedNames c.root).count d ∧ (n = d ∨ ∃ k, n = syntheticName d k)) ∧
        ((definedNames c.root).Nodup → Acyclic c.program.table.Refers)) := by
  obtain ⟨built, htable, hdiagnostics, hrecorded⟩ := recorded_of_compile hcompile
  have hbuilt : built.diagnostics = [] := by
    rw [Compilation.diagnostics, hdiagnostics, List.append_eq_nil_iff, List.reverse_eq_nil_iff] at hclean
    exact hclean.2
  have hreplay : c.program.table = replay .empty c.journal := htable.trans hrecorded.table_eq
  have hacyclic := acyclic_replay (hrecorded.grounded hbuilt)
  have hall (hnever : ∀ m n, ¬ Rebinds c.journal m n) : Acyclic c.program.table.Refers := by
    rw [hreplay]
    exact hacyclic.mono fun m n hrefers => ⟨hrefers, hnever m n⟩
  refine ⟨hreplay, ?_, fun hnodup => hall fun _ _ => not_rebinds_of_nodup hnodup, fun hplain => ?_⟩
  · rw [hreplay]
    exact hacyclic
  · refine ⟨fun m n => hrecorded.redefined hplain, fun hnodup => hall fun m n hrebinds => ?_⟩
    obtain ⟨d, hd, -⟩ := hrecorded.redefined hplain hrebinds
    have hone := List.nodup_iff_count_le_one.mp hnodup d
    omega

/-- A value that refers to a name before it and to one made up. -/
theorem clean_program_acyclic_of_repetition :
    ∃ c, compile .standard "x = 'a'*; y = (x 'b'){2} x;" = .ok c ∧ c.diagnostics = [] ∧
      (c.program.table.entries.map fun e => (e.1, e.2.references)) =
        [("x", []), ("__y__0", ["x"]), ("y", ["__y__0", "__y__0", "x"])] ∧
      Acyclic c.program.table.Refers := by
  have hcompiles : ((compile .standard "x = 'a'*; y = (x 'b'){2} x;").toOption.map fun c =>
      (c.diagnostics.length, definedNames c.root, c.program.table.entries.map fun e => (e.1, e.2.references))) =
        some (0, ["x", "y"], [("x", []), ("__y__0", ["x"]), ("y", ["__y__0", "__y__0", "x"])]) := by
    decide +kernel
  obtain ⟨c, hcompile, hseen⟩ := eq_ok_of_toOption hcompiles
  obtain ⟨hlength, hrest⟩ := Prod.mk.inj hseen
  obtain ⟨hdefined, hentries⟩ := Prod.mk.inj hrest
  have hclean : c.diagnostics = [] := List.length_eq_zero_iff.mp hlength
  obtain ⟨-, -, -, hplain⟩ := clean_program_acyclic hcompile hclean
  rw [hdefined] at hplain
  exact ⟨c, hcompile, hclean, hentries, (hplain (by decide)).2 (by decide)⟩

/-- A name that is defined again in terms of itself is taken without a report. -/
theorem clean_program_with_cycle :
    ∃ c, compile .standard "x = 'a'*; x = x 'b';" = .ok c ∧ c.diagnostics = [] ∧
      ¬ Acyclic c.program.table.Refers := by
  have hcompiles : ((compile .standard "x = 'a'*; x = x 'b';").toOption.map fun c =>
      (c.diagnostics.length, c.program.table.get? "x")) = some (0, some (.concat (.var "x") (.char 98))) := by
    decide +kernel
  obtain ⟨c, hcompile, hseen⟩ := eq_ok_of_toOption hcompiles
  obtain ⟨hlength, hget⟩ := Prod.mk.inj hseen
  have hself : c.program.table.Refers "x" "x" := ⟨_, hget, by decide⟩
  exact ⟨c, hcompile, List.length_eq_zero_iff.mp hlength, fun hacyclic => hacyclic "x" (.single hself)⟩

end Transducer
