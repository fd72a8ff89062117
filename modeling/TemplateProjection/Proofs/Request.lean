import TemplateProjection.Proofs.Calls

/-! A request returns an answer only for the document as it still is. -/
namespace TemplateProjection

variable {file : DocumentId} {document document' : Document} {edits : List Edit}
  {events : List Event} {d : VirtualDocument}

/-- A document whose virtual document was up to date is ahead of it by the changes made since. -/
theorem Explains.version_of_edited {s : Session} (he : Explains events s)
    (hcurrent : ∀ document, s.find? file = some document → document.current? = some d)
    (hfind : (s.editedAll edits).find? file = some document') :
    document'.version = d.version + changesMade file edits s ∧
      (changesMade file edits s = 0 → VirtualDocument.build? file.original document'.text
        document'.version document'.language = some d) := by
  obtain ⟨document, hdocument, -, -, hgain, hsame⟩ := Session.find?_editedAll he.nodup hfind
  obtain ⟨hbuild, hversion⟩ :=
    (he.follows file document hdocument).build?_of_current? (hcurrent document hdocument)
  refine ⟨by omega, fun hnone => ?_⟩
  rw [hsame hnone]
  exact hbuild

namespace Call

variable {α : Type} {c c' : Call} {answer : VirtualDocument → Call → α}
  {script : VirtualDocument → Call → List Edit} {mark : VirtualDocument → Query}

@[simp]
theorem useOf_session (answer : VirtualDocument → Call → α)
    (script : VirtualDocument → Call → List Edit) (mark : VirtualDocument → Query)
    (d : VirtualDocument) (c : Call) :
    (useOf answer script mark d c).2.session = c.session.editedAll (script d c) := by
  simp [useOf]

@[simp]
theorem useOf_queries (answer : VirtualDocument → Call → α)
    (script : VirtualDocument → Call → List Edit) (mark : VirtualDocument → Query)
    (d : VirtualDocument) (c : Call) :
    (useOf answer script mark d c).2.queries = c.queries ++ [mark d] := by
  simp [useOf]

/-- A document that is open after the use has gained a version with each change made during it. -/
theorem version_of_used (he : Explains events c.session)
    (hobtained : c.virtualDocument file = (.ok d, c'))
    (hfind : (useOf answer script mark d c').2.session.find? file = some document) :
    document.version = d.version + changesMade file (script d c') c'.session ∧
      (changesMade file (script d c') c'.session = 0 → VirtualDocument.build? file.original
        document.text document.version document.language = some d) := by
  have hobtains := virtualDocument_obtains he file
  rw [hobtained] at hobtains
  rw [useOf_session] at hfind
  exact (he.steps hobtains.steps).version_of_edited (hobtains.current d rfl) hfind

/-- What a request returns for a document that is open after the use. -/
theorem request_of_used (he : Explains events c.session) (hcancelled : c.cancelled = false)
    (hobtained : c.virtualDocument file = (.ok d, c'))
    (hfind : (useOf answer script mark d c').2.session.find? file = some document) :
    (c.request file (useOf answer script mark)).1 =
      if changesMade file (script d c') c'.session = 0 then .ok (answer d c')
      else .error (if (useOf answer script mark d c').2.cancelled then .cancelled
        else .busy file d.version (d.version + changesMade file (script d c') c'.session)) := by
  rw [request_of_open hcancelled hobtained hfind, staleFailure_of_open hfind,
    (version_of_used he hobtained hfind).1]
  by_cases hnone : changesMade file (script d c') c'.session = 0
  · simp [hnone, useOf]
  · simp [hnone]

/-- An answer is one for the document as it is when the request returns. -/
theorem answer_of_request {r : α} (he : Explains events c.session)
    (hcancelled : c.cancelled = false) (hobtained : c.virtualDocument file = (.ok d, c'))
    (hok : (c.request file (useOf answer script mark)).1 = .ok r) :
    r = answer d c' ∧
      d.version = (textsOf (events ++ (c.editsOfRequest file script).map .edited) file).length ∧
      ∃ document, (c.request file (useOf answer script mark)).2.session.find? file = some document ∧
        VirtualDocument.build? file.original document.text document.version
          document.language = some d := by
  have hend := (he.steps (request_steps he file answer script mark)).follows file
  rw [request_snd hcancelled hobtained] at hend ⊢
  cases hfind : (useOf answer script mark d c').2.session.find? file with
  | none => simp [request_of_closed hcancelled hobtained hfind] at hok
  | some document =>
    obtain ⟨hversion, hbuild⟩ := version_of_used he hobtained hfind
    rw [request_of_used he hcancelled hobtained hfind] at hok
    split at hok
    · next hnone =>
      refine ⟨(Except.ok.inj hok).symm, ?_, document, rfl, hbuild hnone⟩
      rw [← (hend document hfind).version, hversion, hnone, Nat.add_zero]
    · cases hok

/-- A failure that says busy names an older version than the current one. -/
theorem request_busy {current requested : Nat} {file' : DocumentId}
    (he : Explains events c.session)
    (hbusy : (c.request file (useOf answer script mark)).1 =
      .error (.busy file' requested current)) : requested < current := by
  cases hcancelled : c.cancelled with
  | true => simp [request_of_cancelled hcancelled] at hbusy
  | false =>
    rcases hobtained : c.virtualDocument file with ⟨failure | d, c'⟩
    · have hobtains := virtualDocument_obtains he file
      rw [hobtained] at hobtains
      rw [request_of_failure hcancelled hobtained] at hbusy
      exact hobtains.busy file' requested current (congrArg Except.error (Except.error.inj hbusy))
    · cases hfind : (useOf answer script mark d c').2.session.find? file with
      | none => simp [request_of_closed hcancelled hobtained hfind] at hbusy
      | some document =>
        rw [request_of_used he hcancelled hobtained hfind] at hbusy
        split at hbusy
        · cases hbusy
        · split at hbusy
          · cases hbusy
          · cases hbusy
            omega

/-- A request on any reachable session, whatever edits happen during builds and during the use. A
busy failure names an older version than the current one. The use happens at most once. Once it
has happened: an answer means that the document is open and that the virtual document used is that
of its text, version and language; a document closed meanwhile is unknown; one changed meanwhile
makes the request fail with the number of changes, unless it was cancelled; and otherwise there is
an answer. -/
theorem request_version_guard (h : Reachable events c.session) (file : DocumentId)
    (answer : VirtualDocument → Call → α) (script : VirtualDocument → Call → List Edit)
    (mark : VirtualDocument → Query) :
    let out := c.request file (useOf answer script mark)
    (∀ file' requested current, out.1 = .error (.busy file' requested current) →
      requested < current) ∧
    (∀ file' requested current,
      (c.virtualDocument file).1 = .error (.busy file' requested current) → requested < current) ∧
    ((out.2.queries = c.queries ∧ ∃ failure, out.1 = .error failure) ∨
      ∃ d c', c.virtualDocument file = (.ok d, c') ∧ out.2 = (useOf answer script mark d c').2 ∧
        out.2.queries = c.queries ++ [mark d] ∧
        (∀ r, out.1 = .ok r → r = answer d c' ∧
          d.version =
            (textsOf (events ++ (c.editsOfRequest file script).map .edited) file).length ∧
          ∃ document, out.2.session.find? file = some document ∧
            VirtualDocument.build? file.original document.text document.version
              document.language = some d) ∧
        (out.2.session.find? file = none → out.1 = .error (.unknownDocument file)) ∧
        ∀ document, out.2.session.find? file = some document →
          ∀ changes, changes = changesMade file (script d c') c'.session →
            (changes = 0 → out.1 = .ok (answer d c')) ∧
            (1 ≤ changes → out.1 = .error (if out.2.cancelled then .cancelled
              else .busy file d.version (d.version + changes)))) := by
  intro out
  have he := h.explains
  have hobtains := virtualDocument_obtains he file
  refine ⟨fun _ _ _ => request_busy he, hobtains.busy, ?_⟩
  cases hcancelled : c.cancelled with
  | true =>
    have hout : out = (.error .cancelled, c) := request_of_cancelled hcancelled
    exact Or.inl ⟨by rw [hout], .cancelled, by rw [hout]⟩
  | false =>
    rcases hobtained : c.virtualDocument file with ⟨failure | d, c'⟩
    · have hout : out = (.error failure, c') := request_of_failure hcancelled hobtained
      rw [hobtained] at hobtains
      exact Or.inl ⟨hout ▸ hobtains.queries, failure, by rw [hout]⟩
    · have hend : out.2 = (useOf answer script mark d c').2 := request_snd hcancelled hobtained
      rw [hobtained] at hobtains
      refine Or.inr ⟨d, c', rfl, hend, ?_, fun r => answer_of_request he hcancelled hobtained,
        fun hfind => ?_, fun document hfind changes hchanges => ?_⟩
      · rw [hend, useOf_queries, hobtains.queries]
      · rw [hend] at hfind
        exact congrArg Prod.fst (request_of_closed hcancelled hobtained hfind)
      · rw [hend] at hfind ⊢
        have hresult := request_of_used he hcancelled hobtained hfind
        rw [← hchanges] at hresult
        refine ⟨fun hnone => hresult.trans (if_pos hnone), fun hsome => ?_⟩
        exact hresult.trans (if_neg (by omega))

/-- Two changes of the document during the use, under either of its identifiers. -/
theorem request_version_guard_changed :
    let opened := Operation.run ⟨.new {}, false, [], []⟩ (.openDocument "<p/>".toList .markup)
    let script := fun (_ : VirtualDocument) (_ : Call) =>
      [Edit.change ⟨0, false⟩ "<b/>".toList, .change ⟨0, true⟩ "<i/>".toList]
    let out := opened.request ⟨0, true⟩ (useOf (fun _ _ => ()) script fun d => .diagnostics d.id)
    (out.2.session.find? ⟨0, true⟩).isSome ∧ out.1 = .error (.busy ⟨0, true⟩ 1 3) := by
  intro opened script out
  have hreachable : Reachable _ opened.session :=
    ⟨{}, .tail (c := ⟨.new {}, false, [], []⟩) (.refl _) (.openDocument "<p/>".toList .markup)⟩
  have hopen : (out.2.session.find? ⟨0, true⟩).isSome := by decide +kernel
  have hcancelled : out.2.cancelled = false := by decide +kernel
  have hused : out.2.queries ≠ opened.queries := by decide +kernel
  have hfirst : ((opened.virtualDocument ⟨0, true⟩).1.toOption.any fun d => d.version = 1) ∧
      changesMade ⟨0, true⟩ [.change ⟨0, false⟩ "<b/>".toList, .change ⟨0, true⟩ "<i/>".toList]
        (opened.virtualDocument ⟨0, true⟩).2.session = 2 := by decide +kernel
  obtain ⟨document, hfind⟩ := Option.isSome_iff_exists.1 hopen
  refine ⟨hopen, ?_⟩
  rcases (request_version_guard hreachable ⟨0, true⟩ (fun _ _ => ()) script
    fun d => .diagnostics d.id).2.2 with ⟨hqueries, -⟩ | ⟨d, c', hobtained, -, -, -, -, hchanged⟩
  · exact absurd hqueries hused
  · rw [hobtained] at hfirst
    obtain ⟨hversion, hchanges⟩ := hfirst
    have hone : d.version = 1 := by simpa [Except.toOption] using hversion
    have hbusy := (hchanged document hfind 2 hchanges.symm).2 (by decide)
    simpa [hone, hcancelled, out] using hbusy

end Call

end TemplateProjection
