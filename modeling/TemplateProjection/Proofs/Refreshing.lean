import TemplateProjection.Proofs.Calls

/-!
Refreshing documents: each gets the virtual document of its current version, and no other document
is touched. Refreshing all that are out of date leaves none that is.
-/
namespace TemplateProjection

variable {s s' : Session} {id file : DocumentId} {document : Document}
  {files files' : List DocumentId} {events events' : List Event} {d : VirtualDocument}

namespace Document

/-- The document with the virtual document of its current version installed, if that can be made. -/
def refreshed (document : Document) (id : DocumentId) : Document :=
  match document.current?, VirtualDocument.build? id document.text document.version
      document.language with
  | none, some d => { document with installed := some d }
  | _, _ => document

theorem refreshed_of_current? (h : document.current? = some d) :
    document.refreshed id = document := by
  simp [refreshed, h]

theorem refreshed_of_build?_eq_none (h : VirtualDocument.build? id document.text document.version
    document.language = none) : document.refreshed id = document := by
  simp [refreshed, h]

theorem refreshed_of_build? (hcurrent : document.current? = none)
    (h : VirtualDocument.build? id document.text document.version document.language = some d) :
    document.refreshed id = { document with installed := some d } := by
  simp [refreshed, hcurrent, h]

theorem refreshed_spec (document : Document) (id : DocumentId) :
    (document.refreshed id).text = document.text ∧
      (document.refreshed id).version = document.version ∧
      (document.refreshed id).language = document.language := by
  unfold refreshed
  split <;> exact ⟨rfl, rfl, rfl⟩

/-- After a refresh the up-to-date virtual document is the one that was installed, or else the one
that is built now. -/
theorem current?_refreshed (document : Document) (id : DocumentId) :
    (document.refreshed id).current? = document.current?.or
      (VirtualDocument.build? id document.text document.version document.language) := by
  cases hcurrent : document.current? with
  | some d => rw [refreshed_of_current? hcurrent, hcurrent, Option.some_or]
  | none =>
    cases hbuild : VirtualDocument.build? id document.text document.version
        document.language with
    | none => rw [refreshed_of_build?_eq_none hbuild, hcurrent, Option.or_none]
    | some d =>
      rw [refreshed_of_build? hcurrent hbuild, Option.none_or, current?_eq_some_iff]
      exact ⟨rfl, VirtualDocument.version_of_build? hbuild⟩

theorem refreshed_refreshed (document : Document) (id : DocumentId) :
    (document.refreshed id).refreshed id = document.refreshed id := by
  obtain ⟨htext, hversion, hlanguage⟩ := document.refreshed_spec id
  cases hcurrent : (document.refreshed id).current? with
  | some d => exact refreshed_of_current? hcurrent
  | none =>
    rw [current?_refreshed, Option.or_eq_none_iff] at hcurrent
    refine refreshed_of_build?_eq_none ?_
    rw [htext, hversion, hlanguage]
    exact hcurrent.2

end Document

/-- The document refreshed, if it is one of `files`. -/
def Document.refreshedIn (files : List DocumentId) (id : DocumentId) (document : Document) :
    Document :=
  if id ∈ files.map DocumentId.original then document.refreshed id else document

theorem Document.refreshedIn_spec (files : List DocumentId) (id : DocumentId)
    (document : Document) :
    (document.refreshedIn files id).text = document.text ∧
      (document.refreshedIn files id).version = document.version ∧
      (document.refreshedIn files id).language = document.language := by
  unfold refreshedIn
  split
  · exact document.refreshed_spec id
  · exact ⟨rfl, rfl, rfl⟩

namespace Session

/-- The session with some of its documents refreshed. -/
def refreshed (s : Session) (files : List DocumentId) : Session :=
  { s with documents := s.documents.map fun e => (e.1, e.2.refreshedIn files e.1) }

theorem refreshed_nil (s : Session) : s.refreshed [] = s := by
  simp [refreshed, Document.refreshedIn]

theorem refreshed_refreshed (s : Session) (files files' : List DocumentId) :
    (s.refreshed files).refreshed files' = s.refreshed (files ++ files') := by
  simp only [refreshed, List.map_map]
  congr 1
  refine List.map_congr_left fun e _ => ?_
  simp only [Function.comp_apply, Document.refreshedIn, List.map_append, List.mem_append]
  by_cases hfirst : e.1 ∈ files.map DocumentId.original <;>
    by_cases hsecond : e.1 ∈ files'.map DocumentId.original <;>
      simp only [hfirst, hsecond, if_true, if_false, true_or, or_true, or_self,
        Document.refreshed_refreshed]

/-- Only the set of documents counts, not their order. -/
theorem refreshed_congr (s : Session) (h : ∀ file, file ∈ files ↔ file ∈ files') :
    s.refreshed files = s.refreshed files' := by
  simp only [refreshed, Document.refreshedIn, List.mem_map, h]

@[simp]
theorem ids_refreshed (s : Session) (files : List DocumentId) :
    (s.refreshed files).ids = s.ids := by
  simp only [ids, refreshed, List.map_map]
  rfl

theorem find?_refreshed (s : Session) (files : List DocumentId) (id : DocumentId) :
    (s.refreshed files).find? id = (s.find? id).map (·.refreshedIn files id.original) := by
  simp only [find?, refreshed]
  induction s.documents with
  | nil => rfl
  | cons e documents ih =>
    obtain ⟨key, document⟩ := e
    by_cases hkey : id.original = key
    · simp [hkey]
    · have hne : (id.original == key) = false := by simpa using hkey
      simpa [List.lookup_cons, hne] using ih

/-- What rebuilding a document comes to when nothing is edited meanwhile. -/
def outcome (s : Session) (file : DocumentId) : Except Failure Rebuilt :=
  match s.find? file with
  | none => .error (.unknownDocument file)
  | some document =>
    match (document.refreshed file.original).current? with
    | none => .error (.noLayout file)
    | some d => .ok (.installed d)

/-- Rebuilding other documents first, or the document itself, makes no difference to it. -/
theorem outcome_refreshed (s : Session) (files : List DocumentId) (file : DocumentId) :
    (s.refreshed files).outcome file = s.outcome file := by
  simp only [outcome, find?_refreshed]
  cases s.find? file with
  | none => rfl
  | some document =>
    have hagain : (document.refreshedIn files file.original).refreshed file.original =
        document.refreshed file.original := by
      unfold Document.refreshedIn
      split
      · exact document.refreshed_refreshed file.original
      · rfl
    simp only [Option.map_some, hagain]

theorem editedAll_of_cancel {edits : List Edit}
    (h : ∀ edit ∈ edits, edit = .cancel) (s : Session) : s.editedAll edits = s := by
  induction edits with
  | nil => rfl
  | cons edit edits ih =>
    obtain ⟨rfl, hrest⟩ := List.forall_mem_cons.1 h
    exact ih hrest

theorem refreshed_singleton (s : Session) (file : DocumentId) :
    s.refreshed [file] = s.modify file (·.refreshed file.original) := by
  simp only [refreshed, modify, Document.refreshedIn, List.map_singleton, List.mem_singleton]
  congr 1
  refine List.map_congr_left fun e _ => ?_
  split
  · next hkey => rw [hkey]
  · rfl

/-- Only what a change makes of the one document counts. -/
theorem modify_congr {f g : Document → Document} (h : s.ids.Nodup)
    (hfind : s.find? id = some document) (hfg : f document = g document) :
    s.modify id f = s.modify id g := by
  simp only [modify]
  congr 1
  refine List.map_congr_left fun e he => ?_
  split
  · next hkey =>
    have hopen : s.find? id = some e.2 := (find?_eq_some_iff h).2 (hkey ▸ he)
    obtain rfl := Option.some.inj (hopen.symm.trans hfind)
    rw [hfg]
  · rfl

theorem modify_of_eq {f : Document → Document} (h : s.ids.Nodup)
    (hfind : s.find? id = some document) (hf : f document = document) : s.modify id f = s := by
  rw [modify_congr (g := fun document => document) h hfind hf]
  simp [modify]

end Session

theorem Session.mem_ids_close (h : id ∈ (s.close file).ids) : id ∈ s.ids := by
  obtain ⟨e, he, rfl⟩ := List.mem_map.1 h
  refine List.mem_map_of_mem ?_
  simp only [close] at he
  split at he
  · next last _ hlast =>
    split at he
    · exact List.dropLast_subset _ he
    · obtain ⟨entry, hentry, rfl⟩ := List.mem_map.1 he
      split
      · exact List.mem_of_getLast? hlast
      · exact List.dropLast_subset _ hentry
  · exact he

/-- Documents are kept under their own identifiers, not under those of virtual documents. -/
theorem Step.original_ids (hstep : Step s events s') (h : ∀ id ∈ s.ids, id.original = id) :
    ∀ id ∈ s'.ids, id.original = id := by
  intro id hid
  cases hstep with
  | add text language =>
    rw [Session.ids, Session.documents_add] at hid
    split at hid
    · exact h id (Session.ids_modify s _ _ ▸ hid)
    · rw [List.map_append, List.mem_append] at hid
      rcases hid with hid | hid
      · exact h id hid
      · rw [List.mem_singleton.1 hid]
        exact DocumentId.original_ofNat s.nextIndex
  | edit edit =>
    cases edit with
    | change file text => exact h id (Session.ids_modify s _ _ ▸ hid)
    | close file => exact h id (Session.mem_ids_close hid)
    | cancel => exact h id hid
  | install hfind hbuild => exact h id (Session.ids_modify s _ _ ▸ hid)

theorem Steps.original_ids (hsteps : Steps s events s') (h : ∀ id ∈ s.ids, id.original = id) :
    ∀ id ∈ s'.ids, id.original = id := by
  induction hsteps with
  | refl => exact h
  | tail _ hstep ih => exact hstep.original_ids ih

theorem Reachable.original_ids (h : Reachable events s) : ∀ id ∈ s.ids, id.original = id := by
  obtain ⟨config, hevolves⟩ := h
  exact (hevolves.steps (Explains.new config)).original_ids (by simp [Session.ids, Session.new])

/-- Where the keys are the identifiers of the documents, looking one up finds its entry. -/
theorem Session.find?_of_mem (hnodup : s.ids.Nodup) (hids : ∀ id ∈ s.ids, id.original = id)
    {e : DocumentId × Document} (he : e ∈ s.documents) : s.find? e.1 = some e.2 := by
  rw [find?_eq_some_iff hnodup, hids e.1 (List.mem_map_of_mem he)]
  exact he

/-- The version of the installed virtual document, if there is one. -/
def Session.installedVersion? (s : Session) (id : DocumentId) : Option Nat :=
  (s.installed? id).map (·.version)

theorem Session.installedVersion?_eq_iff (hfind : s.find? id = some document) :
    s.installedVersion? id = s.version? id ↔ ∃ d, document.current? = some d := by
  simp only [installedVersion?, installed?, version?, hfind, Option.bind_some, Option.map_some,
    Option.map_eq_some_iff, Document.current?_eq_some_iff]

/-- The documents that are out of date, in the order in which they are kept. -/
theorem Session.stale_eq (hnodup : s.ids.Nodup) (hids : ∀ id ∈ s.ids, id.original = id) :
    s.stale = s.ids.filter fun id => s.installedVersion? id ≠ s.version? id := by
  rw [stale, ids, List.filter_map]
  congr 1
  refine List.filter_congr fun e he => ?_
  have hiff := installedVersion?_eq_iff (find?_of_mem hnodup hids he)
  cases hcurrent : e.2.current? with
  | none =>
    have hne : s.installedVersion? e.1 ≠ s.version? e.1 := by simpa [hcurrent] using hiff
    simpa using hne
  | some d =>
    have heq : s.installedVersion? e.1 = s.version? e.1 := hiff.2 ⟨d, hcurrent⟩
    simpa using heq

namespace Session

/-- The documents of the list that can be rebuilt, with what that comes to. -/
def outcomes (s : Session) (files : List DocumentId) : List (DocumentId × Rebuilt) :=
  files.filterMap fun file => (s.outcome file).toOption.map (file, ·)

theorem map_fst_outcomes (h : ∀ file ∈ files, ∃ d, s.outcome file = .ok (.installed d)) :
    (s.outcomes files).map Prod.fst = files := by
  induction files with
  | nil => rfl
  | cons file files ih =>
    obtain ⟨⟨d, hd⟩, hrest⟩ := List.forall_mem_cons.1 h
    have hfirst : s.outcomes (file :: files) = (file, .installed d) :: s.outcomes files := by
      simp [outcomes, hd, Except.toOption]
    rw [hfirst, List.map_cons, ih hrest]

theorem outcome_of_mem_outcomes {result : Rebuilt} (h : (file, result) ∈ s.outcomes files) :
    file ∈ files ∧ s.outcome file = .ok result := by
  obtain ⟨file', hfile', hresult⟩ := List.mem_filterMap.1 h
  obtain ⟨result', hresult', heq⟩ := Option.map_eq_some_iff.1 hresult
  cases heq
  refine ⟨hfile', ?_⟩
  cases houtcome : s.outcome file with
  | error failure => simp [houtcome, Except.toOption] at hresult'
  | ok value => simpa [houtcome, Except.toOption] using hresult'

/-- Each document that is out of date and can be built gets the virtual document of its version. -/
theorem outcome_of_mem_stale (hnodup : s.ids.Nodup) (hids : ∀ id ∈ s.ids, id.original = id)
    (hbuild : ∀ id document, s.find? id = some document → document.current? = none →
      ∃ d, VirtualDocument.build? id.original document.text document.version
        document.language = some d) (hfile : file ∈ s.stale) :
    ∃ d, s.outcome file = .ok (.installed d) ∧ s.version? file = some d.version ∧
      (s.refreshed s.stale).installed? file = some d := by
  obtain ⟨e, he, rfl⟩ := List.mem_map.1 hfile
  obtain ⟨hmem, hstale⟩ := List.mem_filter.1 he
  have hfind := find?_of_mem hnodup hids hmem
  have hcurrent : e.2.current? = none := by simpa using hstale
  obtain ⟨d, hd⟩ := hbuild e.1 e.2 hfind hcurrent
  have hrefreshed := e.2.current?_refreshed e.1.original
  rw [hcurrent, Option.none_or, hd] at hrefreshed
  have hin : e.1.original ∈ s.stale.map DocumentId.original := List.mem_map_of_mem hfile
  refine ⟨d, by simp [outcome, hfind, hrefreshed], ?_, ?_⟩
  · simp [version?, hfind, VirtualDocument.version_of_build? hd]
  · simp only [installed?, find?_refreshed, hfind, Document.refreshedIn, if_pos hin,
      Option.map_some, Option.bind_some]
    exact (Document.current?_eq_some_iff.1 hrefreshed).1

/-- Refreshing what is out of date leaves nothing that is. -/
theorem installedVersion?_refreshed (hnodup : s.ids.Nodup) (hids : ∀ id ∈ s.ids, id.original = id)
    (hbuild : ∀ id document, s.find? id = some document → document.current? = none →
      ∃ d, VirtualDocument.build? id.original document.text document.version
        document.language = some d) (hid : id ∈ s.ids) :
    (s.refreshed s.stale).installedVersion? id = (s.refreshed s.stale).version? id := by
  obtain ⟨e, he, rfl⟩ := List.mem_map.1 hid
  have hfind := find?_of_mem hnodup hids he
  have hafter : (s.refreshed s.stale).find? e.1 = some (e.2.refreshedIn s.stale e.1.original) := by
    rw [find?_refreshed, hfind, Option.map_some]
  rw [installedVersion?_eq_iff hafter]
  cases hcurrent : e.2.current? with
  | none =>
    obtain ⟨d, hd⟩ := hbuild e.1 e.2 hfind hcurrent
    have hstale : e.1 ∈ s.stale :=
      List.mem_map_of_mem (List.mem_filter.2 ⟨he, by simp [hcurrent]⟩)
    refine ⟨d, ?_⟩
    rw [Document.refreshedIn, if_pos (List.mem_map_of_mem hstale), Document.current?_refreshed,
      hcurrent, Option.none_or, hd]
  | some d =>
    refine ⟨d, ?_⟩
    unfold Document.refreshedIn
    split
    · rw [Document.refreshed_of_current? hcurrent, hcurrent]
    · exact hcurrent

/-- What a refresh keeps. -/
theorem refreshed_frame (s : Session) (files : List DocumentId) (id : DocumentId) :
    (s.refreshed files).sourceText? id = s.sourceText? id ∧
      (s.refreshed files).version? id = s.version? id ∧
      (id.original ∉ files.map DocumentId.original →
        (s.refreshed files).find? id = s.find? id) := by
  rw [sourceText?, sourceText?, version?, version?, find?_refreshed]
  cases s.find? id with
  | none => exact ⟨rfl, rfl, fun _ => rfl⟩
  | some document =>
    obtain ⟨htext, hversion, -⟩ := document.refreshedIn_spec files id.original
    refine ⟨congrArg some htext, congrArg some hversion, fun hnot => congrArg some ?_⟩
    exact if_neg hnot

end Session

end TemplateProjection
