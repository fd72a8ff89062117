import Mathlib.Data.List.Sort
import TemplateProjection.Proofs.Convergence
import TemplateProjection.Proofs.FoundLocations
import TemplateProjection.Proofs.TokenLines

/-!
The semantic tokens of a part of a document are among those of the whole document, in the same
order, and none that lies in the part is missing.
-/
namespace TemplateProjection

variable {token : SemanticToken} {tokens tokens' : List SemanticToken} {file : DocumentId}
  {range : Span} {events events' : List Event} {d : VirtualDocument} {c c' : Call} {a : Analyzer}

namespace SemanticToken

theorem notAfter_iff {s t : SemanticToken} :
    s.notAfter t ↔ s.line < t.line ∨ s.line = t.line ∧ s.column ≤ t.column := by
  simp [notAfter]

instance : IsTrans SemanticToken (·.notAfter ·) where
  trans s t u hst htu := by
    rw [notAfter_iff] at *
    omega

instance : Std.Total (α := SemanticToken) (·.notAfter ·) where
  total s t := by
    rw [notAfter_iff, notAfter_iff]
    omega

theorem insert_eq_orderedInsert (t : SemanticToken) (tokens : List SemanticToken) :
    insert t tokens = tokens.orderedInsert (·.notAfter ·) t := by
  induction tokens with
  | nil => rfl
  | cons u tokens ih => rw [insert, List.orderedInsert_cons, ih]

theorem sort_eq_insertionSort (tokens : List SemanticToken) :
    sort tokens = tokens.insertionSort (·.notAfter ·) := by
  induction tokens with
  | nil => rfl
  | cons t tokens ih =>
    rw [List.insertionSort_cons, ← ih, ← insert_eq_orderedInsert]
    rfl

theorem pairwise_sort (tokens : List SemanticToken) : (sort tokens).Pairwise (·.notAfter ·) := by
  rw [sort_eq_insertionSort]
  exact List.pairwise_insertionSort _ tokens

theorem perm_sort (tokens : List SemanticToken) : (sort tokens).Perm tokens := by
  rw [sort_eq_insertionSort]
  exact List.perm_insertionSort _ tokens

/-- Sorting keeps the order of tokens at the same place, so fewer tokens are sorted alike. -/
theorem sort_sublist (h : tokens.Sublist tokens') : (sort tokens).Sublist (sort tokens') := by
  induction h with
  | slnil => exact .slnil
  | @cons tokens tokens' t _ ih =>
    refine ih.trans ?_
    show (sort tokens').Sublist (insert t (sort tokens'))
    rw [insert_eq_orderedInsert]
    exact List.sublist_orderedInsert t _
  | @cons_cons tokens tokens' t _ ih =>
    show (insert t (sort tokens)).Sublist (insert t (sort tokens'))
    rw [insert_eq_orderedInsert, insert_eq_orderedInsert]
    exact ih.orderedInsert_sublist t (pairwise_sort tokens')

end SemanticToken

theorem VirtualDocument.source_of_build? {id : DocumentId} {source : Text} {version : Nat}
    {language : Language} (h : build? id source version language = some d) : d.source = source := by
  cases language with
  | markup => cases h; rfl
  | outline =>
    obtain ⟨markup, -, hd⟩ := Option.bind_eq_some_iff.1 h
    cases hd
    rfl

namespace Session

variable {s : Session}

theorem refreshed_twice (s : Session) (file : DocumentId) :
    (s.refreshed [file]).refreshed [file] = s.refreshed [file] := by
  rw [refreshed_refreshed]
  exact s.refreshed_congr (by simp)

/-- The virtual document that a rebuild comes to was made from the text of its document. -/
theorem source_of_outcome (he : Explains events s) (h : s.outcome file = .ok (.installed d)) :
    s.sourceText? file = some d.source := by
  rw [outcome] at h
  cases hfind : s.find? file with
  | none => simp [hfind] at h
  | some document =>
    have hfollows := he.follows file document hfind
    rw [hfind] at h
    dsimp only at h
    split at h
    · cases h
    · next d' hcurrent =>
      cases h
      rw [Document.current?_refreshed, Option.or_eq_some_iff] at hcurrent
      have hbuild : VirtualDocument.build? file.original document.text document.version
          document.language = some d := by
        rcases hcurrent with hcurrent | ⟨-, hbuild⟩
        · exact (hfollows.build?_of_current? hcurrent).1
        · exact hbuild
      rw [sourceText?, hfind, VirtualDocument.source_of_build? hbuild]
      rfl

end Session

/-- An undisturbed call gets the virtual document that a rebuild comes to. -/
theorem Call.Undisturbed.virtualDocument (h : c.Undisturbed) (hnodup : c.session.ids.Nodup)
    (hobtained : c.virtualDocument file = (.ok d, c')) :
    c.session.outcome file = .ok (.installed d) ∧ c'.session = c.session.refreshed [file] := by
  obtain ⟨houtcome, hsession, -⟩ := h.rebuild hnodup file
  rw [Call.virtualDocument] at hobtained
  split at hobtained
  · cases hobtained
  · rw [rebuildAttempts, attempt] at hobtained
    split at hobtained
    · cases hobtained
    · split at hobtained
      · cases hobtained
      · next hrebuild =>
        cases hobtained
        rw [hrebuild] at houtcome hsession
        exact ⟨houtcome.symm, hsession⟩
      · next hrebuild =>
        -- an undisturbed rebuild is never superseded
        rw [hrebuild] at houtcome
        rw [Session.outcome] at houtcome
        split at houtcome
        · cases houtcome
        · split at houtcome <;> cases houtcome

namespace Analyzer

/-- What the analyzer says of the virtual document of a file that has just been brought up to
date, as tokens of the source. -/
def tokensOf (a : Analyzer) (s : Session) (file : DocumentId) (d : VirtualDocument)
    (range : Option Span) : List SemanticToken :=
  (a.classifications (s.refreshed [file]) d.id ⟨0, d.text.byteLength⟩).flatMap
    (tokensOfSpan d a.encoding range)

/-- The analyzer is asked about the up-to-date virtual document, and nothing else happens. -/
theorem tokensIn_undisturbed {range : Option Span} (hcalm : c.Undisturbed)
    (hnodup : c.session.ids.Nodup) (hedits : ∀ n, ∀ edit ∈ a.edits n, edit = .cancel)
    (h : (a.tokensIn file range c).1 = .ok tokens) :
    ∃ d, c.session.outcome file = .ok (.installed d) ∧
      tokens = SemanticToken.sort (a.tokensOf c.session file d range) ∧
      (a.tokensIn file range c).2.session = c.session.refreshed [file] := by
  obtain ⟨d, c', hobtained, rfl, hend⟩ := Call.request_ok h
  obtain ⟨houtcome, hsession⟩ := hcalm.virtualDocument hnodup hobtained
  refine ⟨d, houtcome, ?_, ?_⟩
  · rw [tokensOf, ← hsession]
    rfl
  · have hasked := a.ask_session (.classify d.id ⟨0, d.text.byteLength⟩)
      (a.classifications · d.id ⟨0, d.text.byteLength⟩) c'
    rw [Session.editedAll_of_cancel (hedits _), hsession] at hasked
    exact (congrArg Call.session hend).trans hasked

theorem ok_of_map_some {found : Except Failure (List SemanticToken)}
    (h : found.map some = .ok (some tokens)) : found = .ok tokens := by
  cases found with
  | error failure => cases h
  | ok found =>
    cases h
    rfl

theorem semanticTokens_ok (h : (a.semanticTokens file c).1 = .ok (some tokens)) :
    (a.tokensIn file none c).1 = .ok tokens ∧
      (a.semanticTokens file c).2 = (a.tokensIn file none c).2 := by
  unfold semanticTokens at h ⊢
  split at h
  · cases h
  · split at h
    · cases h
    · next hlimit =>
      simp only [if_neg hlimit]
      exact ⟨ok_of_map_some h, trivial⟩

theorem semanticTokensIn_ok (h : (a.semanticTokensIn file range c).1 = .ok (some tokens)) :
    (a.tokensIn file (some range) c).1 = .ok tokens ∧
      (a.semanticTokensIn file range c).2 = (a.tokensIn file (some range) c).2 := by
  unfold semanticTokensIn at h ⊢
  split at h
  · cases h
  · next hlimit =>
    simp only [if_neg hlimit]
    exact ⟨ok_of_map_some h, trivial⟩

end Analyzer

/-- The token has a byte in the range. -/
def SemanticToken.Meets (table : LineTable) (range : Span) (token : SemanticToken) : Prop :=
  ∃ offset, token.Covers table offset ∧ range.start ≤ offset ∧ offset < range.stop

/-- What is classified is left out as a whole, and only if none of its tokens meets the range. -/
theorem tokensOfSpan_range (d : VirtualDocument) (encoding : TokenEncoding) (range : Span)
    (part : ClassifiedSpan) :
    tokensOfSpan d encoding (some range) part = tokensOfSpan d encoding none part ∨
      tokensOfSpan d encoding (some range) part = [] ∧
        ∀ token ∈ tokensOfSpan d encoding none part, ¬ token.Meets d.sourceLines range := by
  unfold tokensOfSpan
  split
  · next type modifiers source hdecoded hsource =>
    simp only [Option.any_some, Option.any_none, Bool.false_eq_true, if_false]
    split
    · next hapart =>
      refine .inr ⟨rfl, fun token htoken => ?_⟩
      rintro ⟨offset, hcovers, hstart, hstop⟩
      obtain ⟨hfrom, hto, -⟩ := exists_covers_splitLines.1 ⟨token, htoken, hcovers⟩
      simp only [Span.inter?, Option.isNone_iff_eq_none, ite_eq_right_iff, reduceCtorEq,
        imp_false] at hapart
      omega
    · exact .inl rfl
  · exact .inl rfl

theorem flatMap_tokensOfSpan_sublist (d : VirtualDocument) (encoding : TokenEncoding) (range : Span)
    (found : List ClassifiedSpan) :
    (found.flatMap (tokensOfSpan d encoding (some range))).Sublist
      (found.flatMap (tokensOfSpan d encoding none)) := by
  induction found with
  | nil => exact .slnil
  | cons part found ih =>
    rw [List.flatMap_cons, List.flatMap_cons]
    rcases tokensOfSpan_range d encoding range part with hsame | ⟨hnone, -⟩
    · rw [hsame]
      exact ih.append_left _
    · rw [hnone]
      exact ih.trans (List.sublist_append_right _ _)

/-- A token that meets the range is there as often as it was. -/
theorem count_flatMap_tokensOfSpan (encoding : TokenEncoding) (found : List ClassifiedSpan)
    (hmeets : token.Meets d.sourceLines range) :
    (found.flatMap (tokensOfSpan d encoding (some range))).count token =
      (found.flatMap (tokensOfSpan d encoding none)).count token := by
  induction found with
  | nil => rfl
  | cons part found ih =>
    rw [List.flatMap_cons, List.flatMap_cons, List.count_append, List.count_append, ih]
    rcases tokensOfSpan_range d encoding range part with hsame | ⟨hnone, hapart⟩
    · rw [hsame]
    · have hzero : (tokensOfSpan d encoding none part).count token = 0 :=
        List.count_eq_zero.2 fun htoken => hapart token htoken hmeets
      rw [hnone, hzero]
      rfl

/-- The semantic tokens of a range and those of the whole document agree. Both calls are made on one
state of the session, in whatever order, and nothing is edited meanwhile; either may have to bring
the virtual document up to date. If both give tokens, those of the range are some of the others and
in the same order, both are in order by line and column, and each token with a byte in the range is
among those of the range, as often as among the others. -/
theorem range_tokens_agree {full part : List SemanticToken} (h : Reachable events c.session)
    (h' : Reachable events' c'.session) (hcalm : c.Undisturbed) (hcalm' : c'.Undisturbed)
    (hedits : ∀ n, ∀ edit ∈ a.edits n, edit = .cancel)
    (hsessions : c'.session = c.session ∨ c'.session = (a.semanticTokens file c).2.session ∨
      c.session = (a.semanticTokensIn file range c').2.session)
    (hfull : (a.semanticTokens file c).1 = .ok (some full))
    (hpart : (a.semanticTokensIn file range c').1 = .ok (some part)) :
    part.Sublist full ∧
      (∀ tokens ∈ [part, full], tokens.Pairwise fun t u =>
        t.line < u.line ∨ t.line = u.line ∧ t.column ≤ u.column) ∧
      ∃ text, c.session.sourceText? file = some text ∧
        ∀ token ∈ full, token.Meets (.ofText text) range →
          token ∈ part ∧ part.count token = full.count token := by
  obtain ⟨hfullIn, hfullEnd⟩ := Analyzer.semanticTokens_ok hfull
  obtain ⟨hpartIn, hpartEnd⟩ := Analyzer.semanticTokensIn_ok hpart
  obtain ⟨d, houtcome, rfl, hend⟩ :=
    Analyzer.tokensIn_undisturbed hcalm h.explains.nodup hedits hfullIn
  obtain ⟨d', houtcome', rfl, hend'⟩ :=
    Analyzer.tokensIn_undisturbed hcalm' h'.explains.nodup hedits hpartIn
  -- both calls ask about the same session and the same virtual document
  have hasked : c'.session.refreshed [file] = c.session.refreshed [file] := by
    rcases hsessions with hsame | hlater | hearlier
    · rw [hsame]
    · rw [hlater, hfullEnd, hend, Session.refreshed_twice]
    · rw [hearlier, hpartEnd, hend', Session.refreshed_twice]
  have hdocument : d' = d := by
    have houtcomes := congrArg (Session.outcome · file) hasked
    simp only [Session.outcome_refreshed, houtcome, houtcome'] at houtcomes
    cases houtcomes
    rfl
  subst hdocument
  refine ⟨SemanticToken.sort_sublist ?_, ?_, d'.source,
    Session.source_of_outcome h.explains houtcome, ?_⟩
  · rw [Analyzer.tokensOf, hasked]
    exact flatMap_tokensOfSpan_sublist _ _ _ _
  · simp only [List.forall_mem_cons, List.not_mem_nil, false_imp_iff, implies_true, and_true]
    exact ⟨(SemanticToken.pairwise_sort _).imp SemanticToken.notAfter_iff.1,
      (SemanticToken.pairwise_sort _).imp SemanticToken.notAfter_iff.1⟩
  · intro token htoken hmeets
    have hcount : (SemanticToken.sort (a.tokensOf c'.session file d' (some range))).count token =
        (SemanticToken.sort (a.tokensOf c.session file d' none)).count token := by
      rw [(SemanticToken.perm_sort _).count_eq, (SemanticToken.perm_sort _).count_eq,
        Analyzer.tokensOf, hasked]
      exact count_flatMap_tokensOfSpan _ _ hmeets
    refine ⟨List.count_pos_iff.1 ?_, hcount⟩
    rw [hcount]
    exact List.count_pos_iff.2 htoken

/-- A range in the second line of a token: the part on the first line is there as well. The document
has changed, so that the call for the whole document, which comes first, rebuilds it. -/
theorem range_tokens_agree_second_line :
    let source := "<p>\x7b\x7b a +\n b \x7d\x7d\x7b\x7b c \x7d\x7d</p>".toList
    let opened := Operation.run ⟨.new {}, false, [], []⟩ (.openDocument "<p/>".toList .markup)
    let changed := Operation.run opened (.change ⟨0, false⟩ source)
    let analyzer := Analyzer.scripted
      [⟨.within "\x7bc\x7d".toList "c".toList, none, 2048, .error, none, ""⟩,
        ⟨.every "b".toList, none, 17, .error, none, ""⟩,
        ⟨.every "a +\n b".toList, none, 2048, .error, none, ""⟩] {} []
    let whole := analyzer.semanticTokens ⟨0, false⟩ changed
    let within := analyzer.semanticTokensIn ⟨0, false⟩ ⟨11, 1⟩ whole.2
    let full : List SemanticToken :=
      [⟨0, 6, 3, .variableName, 0⟩, ⟨1, 0, 2, .variableName, 0⟩, ⟨1, 1, 1, .parameter, 0⟩,
        ⟨1, 8, 1, .variableName, 0⟩]
    whole.1 = .ok (some full) ∧ within.1 = .ok (some (full.take 3)) ∧
      (full.take 3).Sublist full ∧ (⟨1, 1, 1, .parameter, 0⟩ : SemanticToken) ∈ full.take 3 := by
  intro source opened changed analyzer whole within full
  have hopened : Evolves (.new {}) _ opened.session :=
    .tail (c := ⟨.new {}, false, [], []⟩) (.refl _) (.openDocument "<p/>".toList .markup)
  have hchanged : Evolves (.new {}) _ changed.session := .tail hopened (.change ⟨0, false⟩ source)
  have hsession : (Operation.run changed (.virtualDocument ⟨0, false⟩)).session =
      whole.2.session := by decide +kernel
  have hrebuilt := hchanged.tail (.virtualDocument ⟨0, false⟩)
  rw [hsession] at hrebuilt
  have hfull : whole.1 = .ok (some full) := by decide +kernel
  have hpart : within.1 = .ok (some (full.take 3)) := by decide +kernel
  have hbuilds : changed.builds = [] := by decide +kernel
  have hbuilds' : whole.2.builds = [] := by decide +kernel
  have htext : changed.session.sourceText? ⟨0, false⟩ = some source := by decide +kernel
  have hedits : ∀ n, ∀ edit ∈ analyzer.edits n, edit = .cancel := by
    intro n
    simp [analyzer, Analyzer.scripted]
  obtain ⟨hsublist, -, text, hsome, hmeets⟩ := range_tokens_agree ⟨{}, hchanged⟩ ⟨{}, hrebuilt⟩
    (by simp [Call.Undisturbed, hbuilds]) (by simp [Call.Undisturbed, hbuilds'])
    hedits (.inr (.inl rfl)) hfull hpart
  refine ⟨hfull, hpart, hsublist, (hmeets _ (by decide) ?_).1⟩
  rw [htext] at hsome
  cases hsome
  exact ⟨11, ⟨⟨10, 16⟩, by decide +kernel, by decide, by decide⟩, by decide, by decide⟩

end TemplateProjection
