import TemplateProjection.Analysis.References
import TemplateProjection.Analysis.Scripted
import TemplateProjection.Proofs.Request

/-!
The virtual documents through which the answers of an analyzer are carried back. For the requested
document it is the current one. For any other it is the one installed at that moment, which may be
older than the document.
-/
namespace TemplateProjection

variable {s s' : Session} {file : DocumentId} {l v : Location} {edits : List Edit}
  {events : List Event} {capability : Capability} {d : VirtualDocument}
  {asked : Session → DocumentId → Nat → List Location}

theorem Session.editedAll_append (s : Session) (edits edits' : List Edit) :
    s.editedAll (edits ++ edits') = (s.editedAll edits).editedAll edits' :=
  List.foldl_append

theorem Analyzer.ask_session {α : Type} (a : Analyzer) (q : Query) (answer : Session → α)
    (c : Call) :
    (a.ask q answer c).2.session = c.session.editedAll (a.edits c.queries.length) := by
  simp [Analyzer.ask]

theorem Location.mem_toSource (h : l ∈ v.toSource s capability) :
    (v.file.isVirtual = false ∧ l = v) ∨
      (v.file.isVirtual = true ∧ ∃ d m, s.installed? v.file = some d ∧
        m ∈ d.sourceMap.toOriginal v.span capability ∧ l = ⟨v.file.original, m.span⟩) := by
  rw [Location.toSource] at h
  split at h
  · next hvirtual =>
    split at h
    · simp at h
    · next d hd =>
      obtain ⟨m, hm, rfl⟩ := List.mem_map.1 h
      exact .inr ⟨hvirtual, d, m, hd, hm, rfl⟩
  · next hvirtual => exact .inl ⟨by simpa using hvirtual, List.mem_singleton.1 h⟩

/-- How a location was found while a session went from `s` to `s'` by edits. -/
inductive Located (asked : Session → DocumentId → Nat → List Location) (capability : Capability)
    (s s' : Session) : Location → Prop
  /-- It lies in a document and stands as the analyzer gave it. -/
  | given (edits : List Edit) {id : DocumentId} {offset : Nat} {l : Location}
      (hasked : l ∈ asked (s.editedAll edits) id offset) (hfile : l.file.isVirtual = false) :
      Located asked capability s s' l
  /-- It was carried back by what was installed after the edits that happened `during` the
  question. -/
  | carried (edits during later : List Edit) {id : DocumentId} {offset : Nat} {v : Location}
      {d : VirtualDocument} {m : MappedSpan}
      (hasked : v ∈ asked (s.editedAll edits) id offset) (hfile : v.file.isVirtual = true)
      (hinstalled : (s.editedAll (edits ++ during)).installed? v.file = some d)
      (hm : m ∈ d.sourceMap.toOriginal v.span capability)
      (hend : s' = (s.editedAll (edits ++ during)).editedAll later) :
      Located asked capability s s' ⟨v.file.original, m.span⟩

theorem Located.of_editedAll (h : Located asked capability (s.editedAll edits) s' l) :
    Located asked capability s s' l := by
  cases h with
  | given before hasked hfile =>
    rw [← Session.editedAll_append] at hasked
    exact .given (edits ++ before) hasked hfile
  | carried before during later hasked hfile hinstalled hm hend =>
    have hmoment : (s.editedAll edits).editedAll (before ++ during) =
        s.editedAll (edits ++ before ++ during) := by
      rw [← Session.editedAll_append, List.append_assoc]
    rw [← Session.editedAll_append] at hasked
    rw [hmoment] at hinstalled hend
    exact .carried (edits ++ before) during later hasked hfile hinstalled hm hend

/-- Asking at one offset after another. Each answer is carried back before the next question. -/
theorem locateEach_located (question : DocumentId → Nat → Query)
    (asked : Session → DocumentId → Nat → List Location) (capability : Capability) (a : Analyzer)
    (id : DocumentId) (offsets : List Nat) (c : Call) :
    let out := locateEach (fun o => a.ask (question id o) (asked · id o)) capability offsets c
    (∃ edits, out.2.session = c.session.editedAll edits) ∧
      ∀ l ∈ out.1, Located asked capability c.session out.2.session l := by
  induction offsets generalizing c with
  | nil => exact ⟨⟨[], rfl⟩, by simp [locateEach]⟩
  | cons offset offsets ih =>
    intro out
    obtain ⟨⟨later, hlater⟩, hrest⟩ := ih (a.ask (question id offset) (asked · id offset) c).2
    have hsession := a.ask_session (question id offset) (asked · id offset) c
    have hend : out.2.session =
        (c.session.editedAll (a.edits c.queries.length)).editedAll later := by
      rw [← hsession]
      exact hlater
    refine ⟨⟨a.edits c.queries.length ++ later, ?_⟩, fun l hl => ?_⟩
    · rw [Session.editedAll_append]
      exact hend
    · rcases List.mem_append.1 hl with hl | hl
      · obtain ⟨v, hv, hl⟩ := List.mem_flatMap.1 hl
        rcases Location.mem_toSource hl with ⟨hfile, rfl⟩ | ⟨hfile, d, m, hd, hm, rfl⟩
        · exact .given [] hv hfile
        · replace hd : (a.ask (question id offset) (asked · id offset) c).2.session.installed?
              v.file = some d := hd
          rw [hsession] at hd
          exact .carried [] _ later hv hfile hd hm hend
      · have hlocated := hrest l hl
        rw [hsession] at hlocated
        exact hlocated.of_editedAll

/-- A location was carried back through `d`. At that moment the session was `now`, `before` had
happened since the call began, and `later` happened before it returned. -/
structure CarriedThrough (capability : Capability) (events : List Event) (file : DocumentId)
    (start now final : Session) (before later : List Edit) (document : Document)
    (d : VirtualDocument) (l : Location) : Prop where
  moment : Steps start (before.map .edited) now ∧ final = now.editedAll later
  installed : now.find? l.file = some document ∧ document.installed = some d
  mapped : ∃ span, ∃ m ∈ d.sourceMap.toOriginal span capability, l.span = m.span
  /-- It was made from the text of one version, which is not above the current one. -/
  made : d.version ≤ document.version ∧
    ∃ text, textAt? (events ++ before.map .edited) l.file d.version = some text ∧
      VirtualDocument.build? l.file.original text d.version document.language = some d
  /-- What is open at the end has gained a version with each change since. -/
  gained : ∀ document', final.find? l.file = some document' →
    document'.version = document.version + changesMade l.file later now
  /-- In the requested document, it is made from the text that the document has at the end. -/
  requested : l.file.original = file.original → ∃ document', final.find? file = some document' ∧
    d.version = document'.version ∧ VirtualDocument.build? file.original document'.text
      document'.version document'.language = some d

/-- Every location that a call returns was given by the analyzer as it is or carried back. -/
def CarriesBack (asked : Session → DocumentId → Nat → List Location) (capability : Capability)
    (events : List Event) (file : DocumentId) (c : Call)
    (out : Except Failure (List Location) × Call) : Prop :=
  ∀ locations, out.1 = .ok locations → ∀ l ∈ locations, l.file.isVirtual = false ∧
    ((∃ s id offset, l ∈ asked s id offset) ∨
      ∃ now before later document d,
        CarriedThrough capability events file c.session now out.2.session before later document d l)

/-- In a session that went on by edits alone, a document that is open has the virtual document that
it had. -/
theorem Explains.installed_of_editedAll {document document' : Document} (he : Explains events s)
    (file : DocumentId) (hfind : s.find? file = some document)
    (hfind' : (s.editedAll edits).find? file = some document') :
    document'.installed = document.installed ∧
      document'.version = document.version + changesMade file edits s := by
  obtain ⟨before, hbefore, -, hinstalled, hversion, -⟩ := Session.find?_editedAll he.nodup hfind'
  obtain rfl := Option.some.inj (hfind.symm.trans hbefore)
  exact ⟨hinstalled, hversion⟩

/-- What was carried back while the virtual document `current` of the requested document was in use,
if it is still the current one at the end. -/
theorem Located.carriedThrough {c c' : Call} {edits₀ all : List Edit} {current : VirtualDocument}
    {document' : Document} (he : Explains events c.session)
    (hsteps : Steps c.session (edits₀.map .edited) c'.session)
    (hcurrent : ∀ document, c'.session.find? file = some document →
      document.current? = some current)
    (hall : s' = c'.session.editedAll all) (hend : s'.find? file = some document')
    (hversion : document'.version = current.version)
    (h : Located asked capability c'.session s' l) :
    l.file.isVirtual = false ∧ ((∃ s id offset, l ∈ asked s id offset) ∨
      ∃ now before later document d,
        CarriedThrough capability events file c.session now s' before later document d l) := by
  cases h with
  | given edits hasked hfile => exact ⟨hfile, .inl ⟨_, _, _, hasked⟩⟩
  | @carried edits during later _ _ v d m hasked hfile hinstalled hm hlater =>
    refine ⟨rfl, .inr ⟨c'.session.editedAll (edits ++ during), edits₀ ++ (edits ++ during), later,
      ?_⟩⟩
    have hmoment : Steps c.session ((edits₀ ++ (edits ++ during)).map .edited)
        (c'.session.editedAll (edits ++ during)) := by
      rw [List.map_append]
      exact hsteps.trans (.editedAll c'.session (edits ++ during))
    have henow := he.steps hmoment
    obtain ⟨document, hdocument, hd⟩ := Option.bind_eq_some_iff.1 hinstalled
    have hfollows := henow.follows v.file document hdocument
    refine ⟨document, d, ⟨hmoment, hlater⟩, ⟨hdocument, hd⟩, ⟨v.span, m, hm, rfl⟩,
      ⟨hfollows.version_le hd, hfollows.installed d hd⟩, fun document'' hfind => ?_,
      fun hfile => ?_⟩
    · rw [hlater] at hfind
      exact (henow.installed_of_editedAll v.file.original hdocument hfind).2
    · refine ⟨document', hend, ?_⟩
      have he' := he.steps hsteps
      rw [hall] at hend
      obtain ⟨first, hfirst, -, hinstalled', -⟩ := Session.find?_editedAll he'.nodup hend
      have hkept : document'.installed = some current :=
        hinstalled'.trans (Document.current?_eq_some_iff.1 (hcurrent first hfirst)).1
      obtain ⟨hgained, hbuild⟩ := he'.version_of_edited hcurrent hend
      rw [← hall, hlater, Session.find?_congr _ hfile.symm] at hend
      have hsame := (henow.installed_of_editedAll v.file hdocument hend).1
      rw [hkept, hd] at hsame
      obtain rfl := Option.some.inj hsame
      exact ⟨hversion.symm, hbuild (by omega)⟩

theorem locate_carriesBack {c : Call} (he : Explains events c.session)
    (question : DocumentId → Nat → Query) (a : Analyzer) (file : DocumentId) (offset : Nat) :
    CarriesBack asked capability events file c
      (locate (fun id o => a.ask (question id o) (asked · id o)) capability file offset c) := by
  intro locations hok l hl
  rw [locate] at hok ⊢
  cases hcancelled : c.cancelled with
  | true => simp [Call.request_of_cancelled hcancelled] at hok
  | false =>
    rcases hobtained : c.virtualDocument file with ⟨failure | d, c'⟩
    · simp [Call.request_of_failure hcancelled hobtained] at hok
    · have hobtains := Call.virtualDocument_obtains he file
      rw [hobtained] at hobtains
      rw [Call.request_snd hcancelled hobtained]
      obtain ⟨⟨all, hall⟩, hlocated⟩ := locateEach_located question asked capability a d.id
        ((d.sourceMap.toSynthetic (.empty offset) capability).map (·.span.start)) c'
      cases hfind : (locateEach (fun o => a.ask (question d.id o) (asked · d.id o)) capability
          ((d.sourceMap.toSynthetic (.empty offset) capability).map (·.span.start))
          c').2.session.find? file with
      | none =>
        rw [Call.request_of_closed hcancelled hobtained hfind] at hok
        simp at hok
      | some document =>
        rw [Call.request_of_open hcancelled hobtained hfind] at hok
        split at hok
        · next hversion =>
          obtain rfl := Except.ok.inj hok
          exact (hlocated l (List.mem_eraseDups.1 hl)).carriedThrough he hobtains.steps
            (hobtains.current d rfl) hall hfind hversion
        · simp at hok

/-- References and renames. A location in the requested document was carried back by the virtual
document of the version that the document has when the call returns. One in another document was
carried back by the virtual document installed at that moment, of some version up to the current
one. -/
theorem locations_carried_back {c : Call} (h : Reachable events c.session) (a : Analyzer)
    (file : DocumentId) (offset : Nat) :
    CarriesBack a.references .references events file c (a.findReferences file offset c) ∧
      CarriesBack a.renames .rename events file c (a.renameLocations file offset c) :=
  ⟨locate_carriesBack h.explains .references a file offset,
    locate_carriesBack h.explains .rename a file offset⟩

/-- A reference in the document itself. -/
theorem locations_carried_back_requested :
    let opened := Operation.run ⟨.new {}, false, [], []⟩
      (.openDocument "<p>\x7b\x7b a \x7d\x7d</p>".toList .markup)
    let analyzer := Analyzer.scripted
      [⟨.within "\x7ba\x7d".toList "a".toList, some ⟨0, true⟩, 0, .error, none, ""⟩] {} []
    let out := analyzer.findReferences ⟨0, false⟩ 6 opened
    out.1 = .ok [⟨⟨0, false⟩, ⟨6, 1⟩⟩] ∧
      ∃ (d : VirtualDocument) (document : Document),
        out.2.session.find? ⟨0, false⟩ = some document ∧ d.version = document.version ∧
        ∃ span, ∃ m ∈ d.sourceMap.toOriginal span .references, m.span = ⟨6, 1⟩ := by
  intro opened analyzer out
  have hreachable : Reachable _ opened.session :=
    ⟨{}, .tail (c := ⟨.new {}, false, [], []⟩) (.refl _)
      (.openDocument "<p>\x7b\x7b a \x7d\x7d</p>".toList .markup)⟩
  have hout : out.1 = .ok [⟨⟨0, false⟩, ⟨6, 1⟩⟩] := by decide +kernel
  refine ⟨hout, ?_⟩
  obtain ⟨-, hgiven | ⟨_, _, _, _, d, hcarried⟩⟩ :=
    (locations_carried_back hreachable analyzer ⟨0, false⟩ 6).1 _ hout _ (List.mem_singleton_self _)
  · obtain ⟨s, id, offset, hmem⟩ := hgiven
    simp [analyzer, Analyzer.scripted, Finding.locations] at hmem
  · obtain ⟨span, m, hm, hspan⟩ := hcarried.mapped
    obtain ⟨document, hfind, hversion, -⟩ := hcarried.requested rfl
    exact ⟨d, document, hfind, hversion, span, m, hm, hspan.symm⟩

/-- A reference in another document, which has changed since its virtual document was made: the
location is that of the old text. -/
theorem references_through_older_version :
    let old := "<p>\x7b\x7b count \x7d\x7d</p>".toList
    let new := "<div>hello</div><p>\x7b\x7b count \x7d\x7d</p>".toList
    let first := Operation.run ⟨.new {}, false, [], []⟩ (.openDocument old .markup)
    let second := Operation.run first (.openDocument old .markup)
    let changed := Operation.run second (.change ⟨1, false⟩ new)
    let analyzer := Analyzer.scripted
      [⟨.every "count".toList, some ⟨1, true⟩, 0, .error, none, ""⟩] {} []
    let out := analyzer.findReferences ⟨0, false⟩ 6 changed
    (∃ events, Reachable events changed.session) ∧ out.1 = .ok [⟨⟨1, false⟩, ⟨6, 5⟩⟩] ∧
      out.2.session.sourceText? ⟨1, false⟩ = some new ∧
      out.2.session.version? ⟨1, false⟩ = some 2 ∧
      (out.2.session.installed? ⟨1, false⟩).map (·.version) = some 1 ∧
      Text.slice? old ⟨6, 5⟩ = some "count".toList ∧
      Text.slice? new ⟨6, 5⟩ = some "ello<".toList := by
  intro old new first second changed analyzer out
  have hfirst : Evolves (.new {}) _ first.session :=
    .tail (c := ⟨.new {}, false, [], []⟩) (.refl _) (.openDocument old .markup)
  have hsecond : Evolves (.new {}) _ second.session := .tail hfirst (.openDocument old .markup)
  have hchanged : Evolves (.new {}) _ changed.session := .tail hsecond (.change ⟨1, false⟩ new)
  refine ⟨⟨_, {}, hchanged⟩, ?_⟩
  decide +kernel

end TemplateProjection
