import Mathlib.Data.List.Chain
import Transducer.Proofs.Ast.Places
import Transducer.Proofs.Token.Splitting

/-!
# Tokens tile the source

Every token covers some text, and the texts put together are the source. So the spans of the tokens leave no gap and
do not overlap, and they start and end between characters. A match becomes tokens of its own, and what lies between two
matches becomes one token, so neighbours are never both garbage. The kinds that a source has are those of the rules,
those of the parts of a string, and that of garbage.
-/

namespace Transducer

/-- Kinds of inner nodes. -/
def Kind.isNode : Kind → Bool
  | .root | .varDef | .importStmt | .funcDef | .params | .returnStmt | .compose | .union | .diff | .concat | .output
  | .weight | .repetition | .closure | .ref | .str | .nested | .call | .args => true
  | _ => false

/-- Kinds of leaves. -/
def Kind.isLeaf (k : Kind) : Bool := k != .stringLiteral && k != .error && !k.isNode

/-- The spans lie one behind the other from `start` to `stop`, and none of them is empty. -/
def Tile (start stop : Nat) : List Span → Prop
  | [] => start = stop
  | s :: spans => s.start = start ∧ s.start < s.stop ∧ Tile s.stop stop spans

/-! ### Single tokens -/

/-- The token covers some text and has the kind of a leaf. -/
structure Token.Genuine (t : Token) : Prop where
  text_ne : t.text ≠ ""
  isLeaf : t.kind.isLeaf = true

theorem Rule.kind_of_mem_all :
    ∀ r ∈ Rule.all, (r.kind = .stringLiteral ∨ r.kind.isLeaf = true) ∧ r.kind ≠ .garbage := by
  decide

namespace Token

/-- A string becomes its quotes and its content, which is left out if it is empty. -/
theorem genuine_of_mem_splitString {cs : List Char} {t : Token} (h : t ∈ splitString cs) :
    t.Genuine ∧ t.kind ≠ .garbage := by
  cases cs with
  | nil => cases h
  | cons q cs =>
      have hquote : Genuine ⟨if q = '\x22' then .doubleQuote else .singleQuote, String.singleton q⟩ ∧
          (if q = '\x22' then Kind.doubleQuote else .singleQuote) ≠ .garbage := by
        have htext : String.singleton q ≠ "" := mt String.ofList_eq_empty_iff.mp (List.cons_ne_nil q [])
        split
        · exact ⟨⟨htext, rfl⟩, Kind.noConfusion⟩
        · exact ⟨⟨htext, rfl⟩, Kind.noConfusion⟩
      simp only [splitString] at h
      split at h
      · simp only [List.mem_cons, List.not_mem_nil, or_false, or_self] at h
        rw [h]
        exact hquote
      · rename_i hcontent
        simp only [List.mem_cons, List.not_mem_nil, or_false] at h
        rcases h with rfl | rfl | rfl
        · exact hquote
        · have htext := mt String.ofList_eq_empty_iff.mp (mt List.isEmpty_iff.mpr hcontent)
          exact ⟨⟨htext, rfl⟩, Kind.noConfusion⟩
        · exact hquote

theorem genuine_of_mem_ofMatch {cs : List Char} {kind : Kind} {n : Nat} (hbest : Rule.best cs = some (kind, n))
    {t : Token} (h : t ∈ ofMatch kind (cs.take n)) : t.Genuine ∧ t.kind ≠ .garbage := by
  unfold ofMatch at h
  split at h
  · exact genuine_of_mem_splitString h
  · rename_i hkind
    rw [List.mem_singleton.mp h]
    obtain ⟨r, hr, rfl, -⟩ := Rule.mem_of_longest hbest
    obtain ⟨hleaf, hgarbage⟩ := Rule.kind_of_mem_all r hr
    have htake : cs.take n ≠ [] := by
      intro hnil
      rcases List.take_eq_nil_iff.mp hnil with hzero | rfl
      · exact absurd hzero (Nat.ne_of_gt (Rule.pos_of_best hbest))
      · cases hbest
    exact ⟨⟨mt String.ofList_eq_empty_iff.mp htake, hleaf.resolve_left hkind⟩, hgarbage⟩

theorem ofMatch_ne_nil {cs : List Char} {kind : Kind} {n : Nat} (hbest : Rule.best cs = some (kind, n)) :
    ofMatch kind (cs.take n) ≠ [] := by
  unfold ofMatch
  split
  · rename_i hkind
    subst hkind
    obtain ⟨quote, content, -, htake⟩ := Rule.string_of_best hbest
    rw [htake, List.cons_append, splitString]
    split <;> exact List.cons_ne_nil _ _
  · exact List.cons_ne_nil _ _

end Token

theorem Lexed.genuine {cs : List Char} {ts : List Token} (h : Lexed cs ts) {t : Token} (ht : t ∈ ts) : t.Genuine := by
  induction h with
  | nil => cases ht
  | found hbest _ ih =>
      rcases List.mem_append.mp ht with ht | ht
      · exact (Token.genuine_of_mem_ofMatch hbest ht).1
      · exact ih ht
  | unmatched hne _ _ _ ih =>
      rcases List.mem_cons.mp ht with rfl | ht
      · exact ⟨mt String.ofList_eq_empty_iff.mp hne, rfl⟩
      · exact ih ht

/-! ### Neighbours -/

/-- Two neighbours are never both garbage. -/
def Separated (ts : List Token) : Prop := ts.IsChain fun t u => ¬ (t.kind = .garbage ∧ u.kind = .garbage)

/-- Tokens that are no garbage can stand in front of any others. -/
theorem Separated.append {ts us : List Token} (hus : Separated us) (hts : ∀ t ∈ ts, t.kind ≠ .garbage) :
    Separated (ts ++ us) := by
  induction ts with
  | nil => exact hus
  | cons t ts ih =>
      obtain ⟨ht, hts⟩ := List.forall_mem_cons.mp hts
      apply List.isChain_cons.mpr
      exact ⟨fun u _ hboth => ht hboth.1, ih hts⟩

/-- Behind a stretch without matches there is a match, unless the source ends there. -/
theorem Lexed.head?_of_best {cs : List Char} {ts : List Token} (h : Lexed cs ts) (hend : cs = [] ∨ Rule.best cs ≠ none) :
    ∀ t ∈ ts.head?, t.kind ≠ .garbage := by
  intro t ht
  cases h with
  | nil => cases ht
  | @found _ ts kind n hbest _ =>
      obtain ⟨first, rest, hfirst⟩ := List.exists_cons_of_ne_nil (Token.ofMatch_ne_nil hbest)
      rw [hfirst, List.cons_append, List.head?_cons] at ht
      cases ht
      exact (Token.genuine_of_mem_ofMatch hbest (hfirst ▸ List.mem_cons_self)).2
  | @unmatched garbage cs ts hne hnone _ _ =>
      have hfirst := hnone 0 (List.length_pos_iff.mpr hne)
      rcases hend with hnil | hsome
      · exact absurd (List.append_eq_nil_iff.mp hnil).1 hne
      · exact absurd hfirst hsome

theorem Lexed.separated {cs : List Char} {ts : List Token} (h : Lexed cs ts) : Separated ts := by
  induction h with
  | nil => exact .nil
  | found hbest _ ih => exact ih.append fun t ht => (Token.genuine_of_mem_ofMatch hbest ht).2
  | unmatched _ _ hend hrest ih =>
      apply List.isChain_cons.mpr
      exact ⟨fun u hu hboth => hrest.head?_of_best hend u hu hboth.2, ih⟩

/-! ### Spans -/

theorem Token.width_pos {t : Token} (h : t.text ≠ "") : 0 < t.width :=
  Nat.pos_of_ne_zero fun hzero => h (String.utf8ByteSize_eq_zero_iff.mp hzero)

/-- Tokens laid out one behind the other tile what they take up. -/
theorem tile_placed {ts : List Token} (h : ∀ t ∈ ts, t.text ≠ "") (o : Nat) :
    Tile o (o + Token.totalWidth ts) ((Token.placed o ts).map Prod.snd) := by
  induction ts generalizing o with
  | nil => rfl
  | cons t ts ih =>
      obtain ⟨ht, hts⟩ := List.forall_mem_cons.mp h
      have hrest := ih hts (o + t.width)
      rw [Nat.add_assoc, ← Token.totalWidth_cons] at hrest
      exact ⟨rfl, Nat.lt_add_of_pos_right (Token.width_pos ht), hrest⟩

/-- What covers a part of a text starts and ends between characters of the text. -/
theorem Covers.isValid {source text : String} {span : Span} (h : Covers source span text) :
    String.Pos.Raw.IsValid source ⟨span.start⟩ ∧ String.Pos.Raw.IsValid source ⟨span.stop⟩ := by
  obtain ⟨before, after, rfl, rfl⟩ := h
  constructor
  · apply String.Pos.Raw.isValid_iff_exists_append.mpr
    exact ⟨before, text ++ after, String.append_assoc, rfl⟩
  · apply String.Pos.Raw.isValid_iff_exists_append.mpr
    refine ⟨before ++ text, after, rfl, ?_⟩
    rw [String.rawEndPos, String.utf8ByteSize_append]

/-- The tokens of a source tile it. Their spans start at 0, follow each other without a gap and end where the source
does; none of them is empty, and each one starts and ends between two characters and covers the text of its token. Only
the empty source has no tokens. Quotes come in groups of an opening quote, possibly a content, and the same quote
again, and contents occur in such groups only. Neighbours are never both garbage, and no token has the kind of a whole
string, of an error or of a node. -/
theorem lex_tiles_source (source : String) :
    Tile 0 source.utf8ByteSize ((Token.placed 0 (lex source)).map Prod.snd) ∧
      (∀ t span, (t, span) ∈ Token.placed 0 (lex source) →
        Covers source span t.text ∧
          String.Pos.Raw.IsValid source ⟨span.start⟩ ∧ String.Pos.Raw.IsValid source ⟨span.stop⟩) ∧
      (lex source = [] ↔ source = "") ∧
      Paired (lex source) ∧
      (lex source).IsChain (fun t u => ¬ (t.kind = .garbage ∧ u.kind = .garbage)) ∧
      ∀ t ∈ lex source, t.kind ≠ .stringLiteral ∧ t.kind ≠ .error ∧ t.kind.isNode = false := by
  have hlexed := lexed_lex source
  have hwidth : Token.totalWidth (lex source) = source.utf8ByteSize := by
    rw [← Token.utf8ByteSize_join, join_text_lex]
  refine ⟨?_, fun t span h => ?_, ?_, paired_lex source, hlexed.separated, fun t ht => ?_⟩
  · have htile := tile_placed (fun t ht => (hlexed.genuine ht).text_ne) 0
    rwa [hwidth, Nat.zero_add] at htile
  · have hcovers := Token.covers_of_mem_placed h
    rw [join_text_lex] at hcovers
    exact ⟨hcovers, hcovers.isValid⟩
  · constructor
    · intro hnil
      rw [← join_text_lex source, hnil]
      rfl
    · rintro rfl
      rfl
  · have hleaf := (hlexed.genuine ht).isLeaf
    rw [Kind.isLeaf, Bool.and_eq_true, Bool.and_eq_true, bne_iff_ne, bne_iff_ne, Bool.not_eq_true'] at hleaf
    exact ⟨hleaf.1.1, hleaf.1.2, hleaf.2⟩

end Transducer
