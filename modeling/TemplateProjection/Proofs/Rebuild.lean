import TemplateProjection.Proofs.Steps

/-! How a rebuild ends, and the steps that it takes. -/
namespace TemplateProjection

variable {s : Session} {id file : DocumentId} {document document' : Document}
  {edits : List Edit} {events : List Event} {d : VirtualDocument}

theorem Session.modify_of_find?_eq_none (h : s.find? id = none) (f : Document → Document) :
    s.modify id f = s := by
  have hkeep : ∀ e ∈ s.documents, e.1 ≠ id.original := by
    rintro e he heq
    exact find?_eq_none_iff.1 h (List.mem_map.2 ⟨e, he, heq⟩)
  rw [modify, List.map_congr_left fun e he => if_neg (hkeep e he), List.map_id']

namespace Call

variable {c : Call}

/-- The call after the edits that happen during the next build of a document. -/
def afterBuild (c : Call) (file : DocumentId) : Call :=
  (c.nextBuild file).2.performAll (c.nextBuild file).1

/-- The edits that happen while a document is rebuilt. A document that is closed or up to date is
not built. -/
def editsOfRebuild (c : Call) (file : DocumentId) : List Edit :=
  match c.session.find? file with
  | none => []
  | some document => if document.current?.isSome then [] else (c.nextBuild file).1

@[simp]
theorem nextBuild_session (c : Call) (file : DocumentId) :
    (c.nextBuild file).2.session = c.session := rfl

@[simp]
theorem afterBuild_session (c : Call) (file : DocumentId) :
    (c.afterBuild file).session = c.session.editedAll (c.nextBuild file).1 := by
  rw [afterBuild, performAll_session, nextBuild_session]

@[simp]
theorem afterBuild_queries (c : Call) (file : DocumentId) :
    (c.afterBuild file).queries = c.queries := by
  rw [afterBuild, performAll_queries]
  rfl

theorem performDuringBuild_snd (file : DocumentId) (edits : List Edit) (document : Document)
    (c : Call) : (performDuringBuild file edits document c).2 = c.performAll edits := by
  induction edits generalizing document c with
  | nil => rfl
  | cons edit edits ih => exact ih _ (c.perform edit)

theorem rebuild_queries (c : Call) (file : DocumentId) :
    (c.rebuild file).2.queries = c.queries := by
  have hbuilt : ∀ document, (performDuringBuild file (c.nextBuild file).1 document
      (c.nextBuild file).2).2.queries = c.queries := by
    intro document
    rw [performDuringBuild_snd]
    exact afterBuild_queries c file
  unfold rebuild
  split
  · rfl
  · next document _ =>
    split
    · rfl
    · dsimp only
      split
      · exact hbuilt document
      · split <;> exact hbuilt document

/-- A build watches the document for as long as it is open, and its version only rises. -/
theorem performDuringBuild_fst (h : c.session.ids.Nodup) (edits : List Edit) (document : Document)
    (hwatched : ∀ document', c.session.find? file = some document' → document' = document) :
    document.version ≤ (performDuringBuild file edits document c).1.version ∧
      ∀ document', (c.performAll edits).session.find? file = some document' →
        document' = (performDuringBuild file edits document c).1 := by
  induction edits generalizing document c with
  | nil => exact ⟨Nat.le_refl _, hwatched⟩
  | cons edit edits ih =>
    have hnodup : (c.perform edit).session.ids.Nodup := by
      simpa using Session.nodup_edited h edit
    have hnext : document.version ≤
        (((c.perform edit).session.find? file).getD document).version := by
      cases hfind : (c.perform edit).session.find? file with
      | none => exact Nat.le_refl _
      | some next =>
        rw [perform_session] at hfind
        obtain ⟨now, hnow, ⟨-, rfl⟩ | ⟨text, -, rfl⟩⟩ := Session.find?_edited h hfind
        · exact Nat.le_of_eq (by rw [hwatched next hnow, Option.getD_some])
        · rw [hwatched now hnow]
          exact Nat.le_succ _
    obtain ⟨hle, hlast⟩ := ih hnodup (((c.perform edit).session.find? file).getD document)
      fun document' hfind => by rw [hfind, Option.getD_some]
    exact ⟨Nat.le_trans hnext hle, hlast⟩

/-- How a rebuild ends. -/
inductive RebuildCase (c : Call) (file : DocumentId) :
    List Edit → Except Failure Rebuilt × Call → Prop
  | unknown (hfind : c.session.find? file = none) :
    RebuildCase c file [] (.error (.unknownDocument file), c)
  | current {document : Document} {d : VirtualDocument}
    (hfind : c.session.find? file = some document) (hcurrent : document.current? = some d) :
    RebuildCase c file [] (.ok (.installed d), c)
  | failed {document : Document} (hfind : c.session.find? file = some document)
    (hbuild : VirtualDocument.build? file.original document.text document.version
      document.language = none) :
    RebuildCase c file (c.nextBuild file).1 (.error (.noLayout file), c.afterBuild file)
  /-- If the document is still open, it has not changed. -/
  | installed {document : Document} {d : VirtualDocument}
    (hfind : c.session.find? file = some document)
    (hbuild : VirtualDocument.build? file.original document.text document.version
      document.language = some d)
    (hsame : ∀ document', (c.afterBuild file).session.find? file = some document' →
      document' = document) :
    RebuildCase c file (c.nextBuild file).1 (.ok (.installed d), (c.afterBuild file).install d)
  /-- The document has changed, and is at the version reported if still open. -/
  | superseded {document : Document} {version : Nat}
    (hfind : c.session.find? file = some document) (hlt : document.version < version)
    (hversion : ∀ document', (c.afterBuild file).session.find? file = some document' →
      document'.version = version) :
    RebuildCase c file (c.nextBuild file).1
      (.ok (.superseded document.version version), c.afterBuild file)

theorem rebuild_case (h : c.session.ids.Nodup) (file : DocumentId) :
    RebuildCase c file (c.editsOfRebuild file) (c.rebuild file) := by
  cases hfind : c.session.find? file with
  | none =>
    simp only [editsOfRebuild, rebuild, hfind]
    exact .unknown hfind
  | some document =>
    cases hcurrent : document.current? with
    | some d =>
      simp only [editsOfRebuild, rebuild, hfind, hcurrent]
      exact .current hfind hcurrent
    | none =>
      have hwatched : ∀ document', (c.nextBuild file).2.session.find? file = some document' →
          document' = document := by
        intro document' hdocument'
        rw [nextBuild_session, hfind] at hdocument'
        exact (Option.some.inj hdocument').symm
      obtain ⟨hle, hlast⟩ := performDuringBuild_fst (c := (c.nextBuild file).2) h
        (c.nextBuild file).1 document hwatched
      simp only [editsOfRebuild, rebuild, hfind, hcurrent, performDuringBuild_snd]
      cases hbuild : VirtualDocument.build? file.original document.text document.version
          document.language with
      | none => exact .failed hfind hbuild
      | some d =>
        by_cases hversion : (performDuringBuild file (c.nextBuild file).1 document
            (c.nextBuild file).2).1.version = document.version
        · simp only [hversion, if_true]
          refine .installed hfind hbuild fun document' hdocument' => ?_
          have hunchanged : document'.version = document.version :=
            hlast document' hdocument' ▸ hversion
          rw [afterBuild_session] at hdocument'
          obtain ⟨before, hbefore, -, -, hgain, hsame⟩ := Session.find?_editedAll h hdocument'
          obtain rfl : document = before := Option.some.inj (hfind.symm.trans hbefore)
          exact hsame (by omega)
        · simp only [hversion, if_false]
          refine .superseded hfind (by omega) fun document' hdocument' => ?_
          rw [hlast document' hdocument']

namespace RebuildCase

variable {c' : Call} {out : Except Failure Rebuilt × Call}

theorem steps (hcase : RebuildCase c file edits out) :
    Steps c.session (edits.map .edited) out.2.session := by
  have hedits := Steps.editedAll c.session (c.nextBuild file).1
  rw [← afterBuild_session] at hedits
  cases hcase with
  | unknown => exact .refl _
  | current => exact .refl _
  | failed => exact hedits
  | superseded => exact hedits
  | @installed _ d _ hbuild hsame =>
    cases hopen : (c.afterBuild file).session.find? file with
    | none =>
      -- a document closed meanwhile stays closed
      have hclosed : (c.afterBuild file).session.find? d.id = none := by
        rw [VirtualDocument.id_of_build? hbuild]
        exact hopen
      simpa only [install, Session.modify_of_find?_eq_none hclosed] using hedits
    | some document' =>
      obtain rfl := hsame document' hopen
      have hsteps := hedits.trans (.single (.install hopen hbuild))
      rwa [List.append_nil] at hsteps

theorem not_busy {failure : Failure} (hcase : RebuildCase c file edits (.error failure, c'))
    (file' : DocumentId) (requested current : Nat) : failure ≠ .busy file' requested current := by
  cases hcase <;> nofun

/-- The virtual document that a rebuild returns is the up-to-date one. -/
theorem current?_of_installed (hcase : RebuildCase c file edits (.ok (.installed d), c'))
    (hfind : c'.session.find? file = some document) : document.current? = some d := by
  cases hcase with
  | current hbefore hcurrent =>
    obtain rfl := Option.some.inj (hbefore.symm.trans hfind)
    exact hcurrent
  | @installed before _ _ hbuild hsame =>
    have hfind' : ((c.afterBuild file).session.find? file).map
        (fun document => { document with installed := some d }) = some document := by
      rw [install, Session.find?_modify, VirtualDocument.id_of_build? hbuild] at hfind
      simpa using hfind
    obtain ⟨document', hdocument', rfl⟩ := Option.map_eq_some_iff.1 hfind'
    obtain rfl := hsame document' hdocument'
    simp [Document.current?, VirtualDocument.version_of_build? hbuild]

/-- A rebuild that comes too late reports an older version than the current one, and leaves every
installed virtual document. -/
theorem superseded_spec {built version : Nat} (h : c.session.ids.Nodup)
    (hcase : RebuildCase c file edits (.ok (.superseded built version), c')) :
    built < version ∧ c.session.version? file = some built ∧
      (∀ document', c'.session.find? file = some document' → document'.version = version) ∧
      ∀ id document', c'.session.find? id = some document' →
        ∃ document, c.session.find? id = some document ∧
          document'.installed = document.installed := by
  cases hcase with
  | superseded hfind hlt hversion =>
    refine ⟨hlt, by simp [Session.version?, hfind], hversion, fun id document' hdocument' => ?_⟩
    rw [afterBuild_session] at hdocument'
    obtain ⟨document, hdocument, -, hinstalled, -⟩ := Session.find?_editedAll h hdocument'
    exact ⟨document, hdocument, hinstalled⟩

end RebuildCase

end Call

end TemplateProjection
