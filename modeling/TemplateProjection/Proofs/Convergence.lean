import Mathlib.Data.List.Perm.Basic
import TemplateProjection.Proofs.Refreshing

/-!
Rebuilding every document that is out of date brings all of them up to date, and the order in which
they are built makes no difference: each rebuild touches its own document only.
-/
namespace TemplateProjection

variable {file : DocumentId} {files files' : List DocumentId} {events : List Event}

namespace Call

variable {c : Call}

/-- No document is edited while the builds of the call are under way. -/
def Undisturbed (c : Call) : Prop :=
  ∀ b ∈ c.builds, ∀ edits ∈ b.2, ∀ edit ∈ edits, edit = .cancel

theorem Undisturbed.nextBuild (h : c.Undisturbed) (file : DocumentId) :
    (∀ edit ∈ (c.nextBuild file).1, edit = .cancel) ∧ (c.nextBuild file).2.Undisturbed := by
  constructor
  · intro edit hedit
    simp only [Call.nextBuild] at hedit
    cases hlookup : c.builds.lookup file.original with
    | none => simp [hlookup] at hedit
    | some scripts =>
      obtain ⟨before, after, hbuilds, -⟩ := List.lookup_eq_some_iff.1 hlookup
      cases scripts with
      | nil => simp [hlookup] at hedit
      | cons script scripts =>
        have hscript : edit ∈ script := by simpa [hlookup] using hedit
        exact h (file.original, script :: scripts) (by simp [hbuilds]) script
          List.mem_cons_self edit hscript
  · intro b hb
    obtain ⟨entry, hentry, rfl⟩ := List.mem_map.1 hb
    split
    · exact fun edits hedits => h entry hentry edits (List.mem_of_mem_drop hedits)
    · exact h entry hentry

theorem performAll_builds (c : Call) (edits : List Edit) :
    (c.performAll edits).builds = c.builds := by
  induction edits generalizing c with
  | nil => rfl
  | cons edit edits ih =>
    refine (ih (c.perform edit)).trans ?_
    cases edit <;> rfl

theorem Undisturbed.afterBuild (h : c.Undisturbed) (file : DocumentId) :
    (c.afterBuild file).session = c.session ∧ (c.afterBuild file).Undisturbed := by
  obtain ⟨hcancel, hnext⟩ := h.nextBuild file
  refine ⟨?_, ?_⟩
  · rw [afterBuild_session, Session.editedAll_of_cancel hcancel]
  · rw [Undisturbed, Call.afterBuild, performAll_builds]
    exact hnext

/-- An undisturbed rebuild refreshes its document. -/
theorem Undisturbed.rebuild (h : c.Undisturbed) (hnodup : c.session.ids.Nodup)
    (file : DocumentId) :
    (c.rebuild file).1 = c.session.outcome file ∧
      (c.rebuild file).2.session = c.session.refreshed [file] ∧
      (c.rebuild file).2.Undisturbed := by
  rw [Session.refreshed_singleton]
  cases hfind : c.session.find? file with
  | none =>
    rw [Session.modify_of_find?_eq_none hfind]
    simpa [Session.outcome, Call.rebuild, hfind] using h
  | some document =>
    cases hcurrent : document.current? with
    | some d =>
      have hsame : document.refreshed file.original = document :=
        Document.refreshed_of_current? hcurrent
      rw [Session.modify_of_eq hnodup hfind hsame]
      simpa [Session.outcome, Call.rebuild, hfind, hsame, hcurrent] using h
    | none =>
      obtain ⟨hsession, hafter⟩ := h.afterBuild file
      have hrefreshed := document.current?_refreshed file.original
      rw [hcurrent, Option.none_or] at hrefreshed
      have hcase := rebuild_case hnodup file
      generalize c.rebuild file = out, c.editsOfRebuild file = edits at hcase
      cases hcase with
      | unknown hclosed => simp [hfind] at hclosed
      | current hfind' hcurrent' =>
        obtain rfl := Option.some.inj (hfind.symm.trans hfind')
        simp [hcurrent] at hcurrent'
      | failed hfind' hbuild =>
        obtain rfl := Option.some.inj (hfind.symm.trans hfind')
        have hsame := Document.refreshed_of_build?_eq_none hbuild
        refine ⟨by simp [Session.outcome, hfind, hrefreshed, hbuild], ?_, hafter⟩
        rw [hsession, Session.modify_of_eq hnodup hfind hsame]
      | @installed _ d hfind' hbuild =>
        obtain rfl := Option.some.inj (hfind.symm.trans hfind')
        refine ⟨by simp [Session.outcome, hfind, hrefreshed, hbuild], ?_, hafter⟩
        have hinstall : ((c.afterBuild file).install d).session =
            c.session.modify file fun document => { document with installed := some d } := by
          simp only [install, hsession, Session.modify, VirtualDocument.id_of_build? hbuild,
            DocumentId.original_virtual, DocumentId.original_original]
        rw [hinstall]
        exact Session.modify_congr hnodup hfind (Document.refreshed_of_build? hcurrent hbuild).symm
      | superseded hfind' hlt hversion =>
        rw [hsession] at hversion
        have hsame := hversion _ hfind'
        omega

/-- By induction on the documents to be rebuilt; the outcome of each is known from the start. -/
theorem Undisturbed.rebuildEach (h : c.Undisturbed) (hnodup : c.session.ids.Nodup)
    (files : List DocumentId) :
    (c.rebuildEach files).1 = files.map (fun file => (file, c.session.outcome file)) ∧
      (c.rebuildEach files).2.session = c.session.refreshed files := by
  induction files generalizing c with
  | nil => exact ⟨rfl, (Session.refreshed_nil _).symm⟩
  | cons file files ih =>
    obtain ⟨hresult, hsession, hnext⟩ := h.rebuild hnodup file
    obtain ⟨hresults, hsessions⟩ := ih hnext (by rwa [hsession, Session.ids_refreshed])
    constructor
    · simp only [Call.rebuildEach, List.map_cons, hresult, hresults, hsession,
        Session.outcome_refreshed]
    · simp only [Call.rebuildEach, hsessions, hsession, Session.refreshed_refreshed,
        List.singleton_append]

/-- The results of rebuilds in the order of `files`. Failed rebuilds are left out. -/
def collect (files : List DocumentId) (results : List (DocumentId × Except Failure Rebuilt)) :
    List (DocumentId × Rebuilt) :=
  files.filterMap fun file => ((results.lookup file).bind Except.toOption).map (file, ·)

theorem lookup_map_of_mem {α : Type} (f : DocumentId → α) (h : file ∈ files) :
    (files.map fun file => (file, f file)).lookup file = some (f file) := by
  induction files with
  | nil => cases h
  | cons first files ih =>
    by_cases hfirst : file = first
    · simp [hfirst]
    · have hne : (file == first) = false := by simpa using hfirst
      simpa [List.lookup_cons, hne] using ih ((List.mem_cons.1 h).resolve_left hfirst)

/-- Rebuilds made in another order have the same results, once these are put in order. -/
theorem collect_of_perm (s : Session) (h : files.Perm files') :
    collect files' (files.map fun file => (file, s.outcome file)) = s.outcomes files' := by
  refine List.filterMap_congr fun file hfile => ?_
  rw [lookup_map_of_mem s.outcome (h.mem_iff.2 hfile), Option.bind_some]

theorem Undisturbed.rebuildAll (h : c.Undisturbed) (hnodup : c.session.ids.Nodup)
    (hbuilt : ∀ file ∈ c.session.stale, ∃ d, c.session.outcome file = .ok (.installed d)) :
    c.rebuildAll.1 = .ok (c.session.outcomes c.session.stale) ∧
      c.rebuildAll.2.session = c.session.refreshed c.session.stale := by
  obtain ⟨hresults, hsession⟩ := h.rebuildEach hnodup c.session.stale
  refine ⟨?_, by rw [rebuildAll_snd, hsession]⟩
  simp only [Call.rebuildAll, hresults]
  split
  · next file result hfailed =>
    -- none of the rebuilds has failed
    obtain ⟨file', hfile', heq⟩ := List.mem_map.1 (List.mem_of_find?_eq_some hfailed)
    obtain ⟨d, hd⟩ := hbuilt file' hfile'
    rw [hd] at heq
    cases heq
    cases List.find?_some hfailed
  · simp only [List.filterMap_map]
    rfl

theorem rebuildAll_of_stale_eq_nil (h : c.session.stale = []) : c.rebuildAll = (.ok [], c) := by
  simp [Call.rebuildAll, h, Call.rebuildEach]

/-- In every reachable session, if every document that is out of date can be built and none is
edited meanwhile: rebuilding all of them returns just these documents in their order, each with the
virtual document of its version; then every document is up to date and rebuilding again does
nothing; texts, versions and the other documents stay as they are; and rebuilding the documents one
by one in any other order leaves the same session and gives the same answer. -/
theorem rebuildAll_converges (h : Reachable events c.session) (hcalm : c.Undisturbed)
    (hbuild : ∀ id document, c.session.find? id = some document → document.current? = none →
      ∃ d, VirtualDocument.build? id.original document.text document.version
        document.language = some d) :
    ∃ answer s', c.rebuildAll.1 = .ok answer ∧ c.rebuildAll.2.session = s' ∧
      (answer.map Prod.fst =
        c.session.ids.filter fun id => c.session.installedVersion? id ≠ c.session.version? id) ∧
      (∀ file result, (file, result) ∈ answer → ∃ d, result = .installed d ∧
        c.session.version? file = some d.version ∧ s'.installed? file = some d) ∧
      (∀ id ∈ s'.ids, s'.installedVersion? id = s'.version? id) ∧
      (∀ c' : Call, c'.session = s' → c'.rebuildAll = (.ok [], c')) ∧
      s'.ids = c.session.ids ∧
      (∀ id, s'.sourceText? id = c.session.sourceText? id ∧
        s'.version? id = c.session.version? id ∧
        (id.original ∉ answer.map Prod.fst → s'.find? id = c.session.find? id)) ∧
      ∀ order : List DocumentId, order.Perm (answer.map Prod.fst) →
        (c.rebuildEach order).2.session = s' ∧
          collect (answer.map Prod.fst) (c.rebuildEach order).1 = answer := by
  have hnodup := h.explains.nodup
  have hids := h.original_ids
  have hbuilt := fun file (hfile : file ∈ c.session.stale) =>
    Session.outcome_of_mem_stale hnodup hids hbuild hfile
  obtain ⟨hanswer, hsession⟩ := hcalm.rebuildAll hnodup fun file hfile =>
    (hbuilt file hfile).imp fun _ hd => hd.1
  have hfiles : (c.session.outcomes c.session.stale).map Prod.fst = c.session.stale :=
    Session.map_fst_outcomes fun file hfile => (hbuilt file hfile).imp fun _ hd => hd.1
  have hcurrent : ∀ id ∈ (c.session.refreshed c.session.stale).ids,
      (c.session.refreshed c.session.stale).installedVersion? id =
        (c.session.refreshed c.session.stale).version? id := by
    rw [Session.ids_refreshed]
    exact fun id hid => Session.installedVersion?_refreshed hnodup hids hbuild hid
  refine ⟨_, _, hanswer, hsession, ?_, ?_, hcurrent, ?_, Session.ids_refreshed _ _, ?_, ?_⟩
  · rw [hfiles, Session.stale_eq hnodup hids]
  · intro file result hmem
    obtain ⟨hfile, hresult⟩ := Session.outcome_of_mem_outcomes hmem
    obtain ⟨d, hd, hspec⟩ := hbuilt file hfile
    rw [hresult] at hd
    exact ⟨d, Except.ok.inj hd, hspec⟩
  · intro c' hc'
    refine rebuildAll_of_stale_eq_nil ?_
    rw [hc', Session.stale_eq (by rwa [Session.ids_refreshed]) (by rwa [Session.ids_refreshed]),
      List.filter_eq_nil_iff]
    exact fun id hid => by simpa using hcurrent id hid
  · intro id
    obtain ⟨htext, hversion, hother⟩ := c.session.refreshed_frame c.session.stale id
    refine ⟨htext, hversion, fun hnot => hother ?_⟩
    rw [hfiles] at hnot
    intro hin
    obtain ⟨file, hfile, heq⟩ := List.mem_map.1 hin
    have hown : file.original = file := by
      obtain ⟨e, he, rfl⟩ := List.mem_map.1 hfile
      exact hids e.1 (List.mem_map_of_mem (List.mem_filter.1 he).1)
    exact hnot (heq ▸ hown.symm ▸ hfile)
  · intro order horder
    rw [hfiles] at horder ⊢
    obtain ⟨hresults, hfinal⟩ := hcalm.rebuildEach hnodup order
    rw [hresults, hfinal, collect_of_perm c.session horder]
    exact ⟨c.session.refreshed_congr fun file => horder.mem_iff, rfl⟩

/-- Of three documents the first was closed, so that the last took its place, and the others were
changed. -/
theorem rebuildAll_converges_changed :
    let first := Operation.run ⟨.new {}, false, [], []⟩ (.openDocument "<p/>".toList .markup)
    let second := Operation.run first (.openDocument "<b/>".toList .markup)
    let third := Operation.run second (.openDocument "p x".toList .outline)
    let closed := Operation.run third (.close ⟨0, false⟩)
    let changed := Operation.run closed (.change ⟨1, false⟩ "<i/>".toList)
    let c := Operation.run changed (.change ⟨2, false⟩ "p y".toList)
    c.session.ids = [⟨2, false⟩, ⟨1, false⟩] ∧
      ∃ answer, c.rebuildAll.1 = .ok answer ∧ answer.map Prod.fst = [⟨2, false⟩, ⟨1, false⟩] ∧
        (c.rebuildEach [⟨1, false⟩, ⟨2, false⟩]).2.session = c.rebuildAll.2.session := by
  intro first second third closed changed c
  have hfirst : Evolves (.new {}) _ first.session :=
    .tail (c := ⟨.new {}, false, [], []⟩) (.refl _) (.openDocument "<p/>".toList .markup)
  have hsecond : Evolves (.new {}) _ second.session :=
    .tail hfirst (.openDocument "<b/>".toList .markup)
  have hthird : Evolves (.new {}) _ third.session :=
    .tail hsecond (.openDocument "p x".toList .outline)
  have hclosed : Evolves (.new {}) _ closed.session := .tail hthird (.close ⟨0, false⟩)
  have hchanged : Evolves (.new {}) _ changed.session :=
    .tail hclosed (.change ⟨1, false⟩ "<i/>".toList)
  have hc : Reachable _ c.session := ⟨{}, .tail hchanged (.change ⟨2, false⟩ "p y".toList)⟩
  have hids : c.session.ids = [⟨2, false⟩, ⟨1, false⟩] := by decide +kernel
  have hbuilds : c.builds = [] := by decide +kernel
  have hbuilt : c.session.documents.all fun e =>
      (VirtualDocument.build? e.1 e.2.text e.2.version e.2.language).isSome := by decide +kernel
  have hstale : (c.session.ids.filter fun id =>
      c.session.installedVersion? id ≠ c.session.version? id) = [⟨2, false⟩, ⟨1, false⟩] := by
    decide +kernel
  obtain ⟨answer, s', hanswer, rfl, hfiles, -, -, -, -, -, horder⟩ :=
    rebuildAll_converges hc (by simp [Undisturbed, hbuilds]) fun id document hfind _ =>
      Option.isSome_iff_exists.1 (List.all_eq_true.1 hbuilt _
        ((Session.find?_eq_some_iff hc.explains.nodup).1 hfind))
  rw [hstale] at hfiles
  refine ⟨hids, answer, hanswer, hfiles, (horder _ ?_).1⟩
  rw [hfiles]
  exact .swap _ _ _

end Call

end TemplateProjection
