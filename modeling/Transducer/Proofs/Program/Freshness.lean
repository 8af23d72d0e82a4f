import Transducer.Proofs.Program.Journal

/-!
# Names made up are fresh

The names made up for repetitions live in the table next to those that a source defines. A name made up tells its
definition and its number, so those of different definitions never meet, and one definition takes each number once. It
starts with two underscores, so it meets no name of the source that does not, and hoisting leaves the values of all of
these as they are.

Nothing keeps a source from defining a name that starts with two underscores, and such a name can be the one that is
made up: in `__x__0 = 'a'*; x = ('b'*){2};` the first definition is lost.
-/

namespace Transducer

namespace Builder

/-- The write is that of a definition's value. -/
def Origin.isBound : Origin → Bool
  | .bound _ => true
  | .hoisted _ _ => false

theorem get?_replay_filter {name : String} (t : Table Re) (ws : List Write) (p : Write → Bool)
    (h : ∀ w ∈ ws, p w = false → w.name ≠ name) : (replay t (ws.filter p)).get? name = (replay t ws).get? name := by
  induction ws using List.reverseRecOn with
  | nil => rfl
  | append_singleton ws last ih =>
      have ih := ih fun w hw => h w (List.mem_append_left _ hw)
      rw [List.filter_append, replay_concat, Table.get?_insert]
      cases hlast : p last with
      | true =>
          rw [List.filter_cons_of_pos hlast, List.filter_nil, replay_concat, Table.get?_insert, ih]
      | false =>
          have hne : last.name ≠ name := h last (List.mem_append_right _ List.mem_cons_self) hlast
          rw [List.filter_cons_of_neg (Bool.eq_false_iff.mp hlast), List.filter_nil, List.append_nil, if_neg hne, ih]

end Builder

open Builder

/-- Hoisting is fresh. The journal of a compilation gives the table, and at each hoist in it the name belongs to a
definition of the source; no hoist for another definition or with another number has that name, and there are no more
hoists with it than definitions of that name. A name that the source defines and that does not start with two
underscores is another one, and its value is the same before and after. So for its value in the end the hoists could
have been left out. -/
theorem hoists_are_fresh {options : Options} {source : String} {c : Compilation}
    (hcompile : compile options source = .ok c) :
    c.program.table = replay .empty c.journal ∧
      (∀ before d k value after, c.journal = before ++ ⟨.hoisted d k, value⟩ :: after →
        d ∈ definedNames c.root ∧
          (∀ e l value', ⟨.hoisted e l, value'⟩ ∈ c.journal → syntheticName e l = syntheticName d k →
            e = d ∧ l = k) ∧
          (c.journal.map Write.origin).count (.hoisted d k) ≤ (definedNames c.root).count d ∧
          ∀ name ∈ definedNames c.root, Plain name →
            name ≠ syntheticName d k ∧
              (replay .empty (before ++ [⟨.hoisted d k, value⟩])).get? name = (replay .empty before).get? name) ∧
      ∀ name ∈ definedNames c.root, Plain name →
        c.program.table.get? name = (replay .empty (c.journal.filter (·.origin.isBound))).get? name := by
  obtain ⟨built, htable, -, hrecorded⟩ := recorded_of_compile hcompile
  have hreplay : c.program.table = replay .empty c.journal := htable.trans hrecorded.table_eq
  refine ⟨hreplay, ?_, ?_⟩
  · intro before d k value after hjournal
    have hmem : ⟨.hoisted d k, value⟩ ∈ c.journal := by
      rw [hjournal]
      exact List.mem_append_right _ List.mem_cons_self
    refine ⟨hrecorded.owner_mem hmem, ?_, hrecorded.count_le (.hoisted d k), ?_⟩
    · intro e l value' _ hname
      exact syntheticName_inj hname
    · intro name _ hplain
      have hne := ne_syntheticName hplain d k
      refine ⟨hne, ?_⟩
      rw [replay_concat]
      exact Table.get?_insert_of_ne _ value (Ne.symm hne)
  · intro name _ hplain
    rw [hreplay]
    refine (get?_replay_filter _ _ _ fun w _ hhoisted => ?_).symm
    obtain ⟨origin, value⟩ := w
    cases origin with
    | bound d => cases hhoisted
    | hoisted d k => exact Ne.symm (ne_syntheticName hplain d k)

/-- Two definitions with a repetition each: the second hoist leaves the values of both as they are. -/
theorem hoists_are_fresh_of_two_definitions :
    ∃ c before value after, compile .standard "x = ('a'*){2}; y = (x 'b'){2};" = .ok c ∧
      c.journal = before ++ ⟨.hoisted "y" 0, value⟩ :: after ∧
      before.map Write.name = ["__x__0", "x"] ∧ definedNames c.root = ["x", "y"] ∧
      ∀ name ∈ definedNames c.root, name ≠ "__y__0" ∧
        (replay .empty (before ++ [⟨.hoisted "y" 0, value⟩])).get? name = (replay .empty before).get? name := by
  have hcompiles : ((compile .standard "x = ('a'*){2}; y = (x 'b'){2};").toOption.map fun c =>
      (definedNames c.root, c.journal)) =
        some (["x", "y"],
          [⟨.hoisted "x" 0, .kleene (.char 97) .zeroOrMore⟩, ⟨.bound "x", .concat (.var "__x__0") (.var "__x__0")⟩] ++
            ⟨.hoisted "y" 0, .concat (.var "x") (.char 98)⟩ ::
              [⟨.bound "y", .concat (.var "__y__0") (.var "__y__0")⟩]) := by
    decide +kernel
  obtain ⟨c, hcompile, hseen⟩ := eq_ok_of_toOption hcompiles
  obtain ⟨hdefined, hjournal⟩ := Prod.mk.inj hseen
  obtain ⟨-, hfresh, -⟩ := hoists_are_fresh hcompile
  obtain ⟨-, -, -, hkept⟩ := hfresh _ _ _ _ _ hjournal
  refine ⟨c, _, _, _, hcompile, hjournal, rfl, hdefined, fun name hname => hkept name hname ?_⟩
  rw [hdefined] at hname
  exact (show ∀ name ∈ ["x", "y"], Plain name by decide) name hname

/-- A definition that is named like one made up loses its value. -/
theorem hoist_overwrites_definition :
    ∃ c before value after, compile .standard "__x__0 = 'a'*; x = ('b'*){2};" = .ok c ∧ c.diagnostics = [] ∧
      c.journal = before ++ ⟨.hoisted "x" 0, value⟩ :: after ∧
      syntheticName "x" 0 ∈ definedNames c.root ∧
      (replay .empty (before ++ [⟨.hoisted "x" 0, value⟩])).get? "__x__0" ≠ (replay .empty before).get? "__x__0" := by
  have hcompiles : ((compile .standard "__x__0 = 'a'*; x = ('b'*){2};").toOption.map fun c =>
      (c.diagnostics.length, definedNames c.root, c.journal)) =
        some (0, ["__x__0", "x"],
          [⟨.bound "__x__0", .kleene (.char 97) .zeroOrMore⟩] ++
            ⟨.hoisted "x" 0, .kleene (.char 98) .zeroOrMore⟩ ::
              [⟨.bound "x", .concat (.var "__x__0") (.var "__x__0")⟩]) := by
    decide +kernel
  obtain ⟨c, hcompile, hseen⟩ := eq_ok_of_toOption hcompiles
  obtain ⟨hlength, hrest⟩ := Prod.mk.inj hseen
  obtain ⟨hdefined, hjournal⟩ := Prod.mk.inj hrest
  refine ⟨c, _, _, _, hcompile, List.length_eq_zero_iff.mp hlength, hjournal, ?_, ?_⟩
  · rw [hdefined]
    decide
  · decide

end Transducer
