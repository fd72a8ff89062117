import TemplateProjection.Proofs.Calls

/-! An installed virtual document is always that of one version of its document. -/
namespace TemplateProjection

variable {s s' : Session} {id file : DocumentId} {document document' : Document}
  {events events' : List Event}

/-- Until identifiers come round again, opening a document hands out a new one. -/
theorem Explains.openDocument_fresh {c : Call} {text : Text} {language : Language}
    (he : Explains events c.session) (hfew : (openedIds events).length < 0x80000000)
    (hopen : (c.openDocument text language).1 = .ok id) :
    id ∉ openedIds events ∧
      openedIds ((Operation.openDocument text language).happenings c) = [id] := by
  obtain rfl := (c.openDocument_spec text language).2 id hopen
  constructor
  · rw [he.opened, List.length_map, List.length_range] at hfew
    rw [he.opened, List.mem_map]
    rintro ⟨n, hn, heq⟩
    rw [List.mem_range] at hn
    have hmod : n % 0x80000000 = c.session.nextIndex % 0x80000000 := congrArg DocumentId.index heq
    omega
  · exact congrArg (_ :: ·) (openedIds_edits _)

/-- While an identifier is handed out only once, the virtual document of its document never gets
older. -/
theorem Explains.installedLE (he : Explains events s) (hevolves : Evolves s events' s')
    (hfew : (openedIds (events ++ events')).length < 0x80000000)
    (hfind : s.find? id = some document) (hfind' : s'.find? id = some document') :
    document.InstalledLE document' := by
  have hsteps := hevolves.steps he
  have hdistinct := (he.steps hsteps).nodup_openedIds hfew
  rw [openedIds_append] at hdistinct
  have hnotin : id.original ∉ openedIds events' :=
    fun hmem => List.disjoint_of_nodup_append hdistinct (he.mem_openedIds hfind) hmem
  obtain ⟨before, hbefore, hle⟩ := hsteps.installedLE he hnotin hfind'
  obtain rfl := Option.some.inj (hfind.symm.trans hbefore)
  exact hle

/-- In every reachable session, as long as fewer than 2³¹ documents have been opened: identifiers
are handed out once; an installed virtual document is the one made from the text that its document
had at the version it names; that version is not above the current one and never goes down; a
rebuild that comes too late installs nothing; and one that installs leaves the document up to
date. -/
theorem installed_document_never_stale (h : Reachable events s)
    (hfew : (openedIds events).length < 0x80000000) :
    (openedIds events).Nodup ∧
    (∀ (c : Call) text language id, c.session = s → (c.openDocument text language).1 = .ok id →
      id ∉ openedIds events ∧
        openedIds ((Operation.openDocument text language).happenings c) = [id]) ∧
    (∀ id document, s.find? id = some document →
      document.version = (textsOf events id).length ∧
      textAt? events id document.version = some document.text ∧
      ∀ d, document.installed = some d → d.version ≤ document.version ∧
        ∃ text, textAt? events id d.version = some text ∧
          VirtualDocument.build? id.original text d.version document.language = some d) ∧
    (∀ events' s' id document document', Evolves s events' s' →
      (openedIds (events ++ events')).length < 0x80000000 →
      s.find? id = some document → s'.find? id = some document' →
      ∀ d, document.installed = some d →
        ∃ d', document'.installed = some d' ∧ d.version ≤ d'.version) ∧
    (∀ (c : Call) file built current c', c.session = s →
      c.rebuild file = (.ok (.superseded built current), c') → built < current ∧
      ∀ id document', c'.session.find? id = some document' →
        ∃ document, s.find? id = some document ∧ document'.installed = document.installed) ∧
    (∀ (c : Call) file d c' document', c.session = s →
      c.rebuild file = (.ok (.installed d), c') → c'.session.find? file = some document' →
      document'.installed = some d ∧ document'.version = d.version) := by
  have he := h.explains
  refine ⟨he.nodup_openedIds hfew, ?_, fun id document hfind => ?_, ?_, ?_, ?_⟩
  · rintro c text language id rfl hopen
    exact he.openDocument_fresh hfew hopen
  · have hfollows := he.follows id document hfind
    refine ⟨hfollows.version, hfollows.version ▸ textAt?_length hfollows.text, fun d hd => ?_⟩
    exact ⟨hfollows.version_le hd, hfollows.installed d hd⟩
  · intro events' s' id document document' hevolves hfew' hfind hfind'
    exact he.installedLE hevolves hfew' hfind hfind'
  · rintro c file built current c' rfl hrebuild
    have hcase := Call.rebuild_case he.nodup file
    rw [hrebuild] at hcase
    obtain ⟨hlt, -, -, hinstalled⟩ := hcase.superseded_spec he.nodup
    exact ⟨hlt, hinstalled⟩
  · rintro c file d c' document' rfl hrebuild hfind
    have hcase := Call.rebuild_case he.nodup file
    rw [hrebuild] at hcase
    obtain ⟨hinstalled, hversion⟩ :=
      Document.current?_eq_some_iff.1 (hcase.current?_of_installed hfind)
    exact ⟨hinstalled, hversion.symm⟩

/-- A document that was changed after it was opened: its virtual document is still that of the first
text. -/
theorem installed_document_never_stale_changed :
    let opened := Operation.run ⟨.new {}, false, [], []⟩ (.openDocument "<p/>".toList .markup)
    let changed := Operation.run opened (.change ⟨0, false⟩ "<b/>".toList)
    ∃ document d, changed.session.find? ⟨0, false⟩ = some document ∧
      document.installed = some d ∧ d.version = 1 ∧ document.version = 2 ∧
      VirtualDocument.build? ⟨0, false⟩ "<p/>".toList 1 document.language = some d := by
  intro opened changed
  have hopened : Evolves (.new {}) _ opened.session :=
    .tail (c := ⟨.new {}, false, [], []⟩) (.refl _) (.openDocument "<p/>".toList .markup)
  have hreachable : Reachable _ changed.session :=
    ⟨{}, .tail hopened (.change ⟨0, false⟩ "<b/>".toList)⟩
  have hspec := installed_document_never_stale hreachable (by decide +kernel)
  have hversions : (changed.session.find? ⟨0, false⟩).any fun document =>
      document.version = 2 ∧ document.installed.any fun d => d.version = 1 := by decide +kernel
  obtain ⟨document, hfind, hdocument⟩ := (Option.any_eq_true _ _).1 hversions
  obtain ⟨hversion, hinstalled⟩ := of_decide_eq_true hdocument
  obtain ⟨d, hd, hone⟩ := (Option.any_eq_true _ _).1 hinstalled
  have hone : d.version = 1 := of_decide_eq_true hone
  obtain ⟨-, text, htext, hbuild⟩ := (hspec.2.2.1 ⟨0, false⟩ document hfind).2.2 d hd
  rw [hone] at htext hbuild
  have hfirst : text = "<p/>".toList := Option.some.inj (htext.symm.trans (by decide +kernel))
  exact ⟨document, d, hfind, hd, hone, hversion, hfirst ▸ hbuild⟩

end TemplateProjection
