import TemplateProjection.Proofs.Lists
import TemplateProjection.Proofs.MapQueries
import TemplateProjection.Proofs.References

/-!
The locations that a call for references or for the places of a renaming returns: the locations that
the analyzer gave in documents, the original places of those that it gave in virtual documents, and
no others.
-/
namespace TemplateProjection

variable {s : Session} {file : DocumentId} {l v : Location} {capability : Capability} {c c' : Call}
  {d : VirtualDocument} {asked : Session → DocumentId → Nat → List Location} {offset : Nat}

/-- A question about an offset of a virtual document, with the session at the moment when it was put
and at the moment when the answer had come. -/
structure Asking where
  offset : Nat
  put : Session
  answered : Session

/-- Questions about offsets in turn, of which the first has the given number in its call. During
question number `n` the edits `edits n` happen. -/
def askings (edits : Nat → List Edit) : (offsets : List Nat) → (number : Nat) → Session →
    List Asking
  | [], _, _ => []
  | offset :: offsets, number, s =>
    ⟨offset, s, s.editedAll (edits number)⟩ ::
      askings edits offsets (number + 1) (s.editedAll (edits number))

/-- What is to be returned for a location that the analyzer gave. -/
inductive Location.Yields (capability : Capability) (s : Session) (v : Location) : Location → Prop
  /-- The location itself, if it lies in a document. -/
  | given (hfile : v.file.isVirtual = false) : Yields capability s v v
  /-- Otherwise whatever a mapping of the installed virtual document carries it to. -/
  | mapped {d : VirtualDocument} {m : Mapping} {span : Span} (hfile : v.file.isVirtual = true)
      (hinstalled : s.installed? v.file = some d) (hm : m ∈ d.sourceMap.mappings)
      (hallows : m.capabilities.allows capability) (hspan : m.toOriginal? v.span = some span) :
      Yields capability s v ⟨v.file.original, span⟩

theorem SourceMap.mem_map_query {map : SourceMap} {carry : Mapping → Option Span} {span : Span} :
    span ∈ (map.query carry capability).map MappedSpan.span ↔
      ∃ m ∈ map.mappings, m.capabilities.allows capability ∧ carry m = some span := by
  rw [List.mem_map]
  constructor
  · rintro ⟨⟨found, m, index⟩, hfound, rfl⟩
    obtain ⟨hat, hallows, hcarry⟩ := mem_query.1 hfound
    exact ⟨m, List.mem_of_getElem? hat, hallows, hcarry⟩
  · rintro ⟨m, hm, hallows, hcarry⟩
    obtain ⟨index, hat⟩ := List.mem_iff_getElem?.1 hm
    exact ⟨⟨span, m, index⟩, mem_query.2 ⟨hat, hallows, hcarry⟩, rfl⟩

theorem Location.mem_toSource_iff : l ∈ v.toSource s capability ↔ v.Yields capability s l := by
  constructor
  · intro h
    rcases mem_toSource h with ⟨hfile, rfl⟩ | ⟨hfile, d, m, hd, hm, rfl⟩
    · exact .given hfile
    · obtain ⟨m', hm', hallows, hspan⟩ := SourceMap.mem_map_query.1 (List.mem_map_of_mem hm)
      exact .mapped hfile hd hm' hallows hspan
  · intro h
    cases h with
    | given hfile => simp [toSource, hfile]
    | @mapped d m span hfile hinstalled hm hallows hspan =>
      have hmem : span ∈ (d.sourceMap.toOriginal v.span capability).map MappedSpan.span :=
        SourceMap.mem_map_query.2 ⟨m, hm, hallows, hspan⟩
      obtain ⟨found, hfound, rfl⟩ := List.mem_map.1 hmem
      simp only [toSource, hfile, if_true, hinstalled]
      exact List.mem_map.2 ⟨found, hfound, rfl⟩

theorem Location.Yields.not_isVirtual (h : v.Yields capability s l) : l.file.isVirtual = false := by
  cases h with
  | given hfile => exact hfile
  | mapped => rfl

/-- Asking at one offset after another finds what the answers yield, each in the session that there
was when it had come. -/
theorem mem_locateEach_iff (question : DocumentId → Nat → Query)
    (asked : Session → DocumentId → Nat → List Location) (capability : Capability) (a : Analyzer)
    (id : DocumentId) (offsets : List Nat) (c : Call) :
    let out := locateEach (fun o => a.ask (question id o) (asked · id o)) capability offsets c
    (∀ l, l ∈ out.1 ↔ ∃ k ∈ askings a.edits offsets c.queries.length c.session,
      ∃ v ∈ asked k.put id k.offset, v.Yields capability k.answered l) ∧
      out.2.queries = c.queries ++ offsets.map (question id) := by
  induction offsets generalizing c with
  | nil => simp [locateEach, askings]
  | cons offset offsets ih =>
    obtain ⟨hfound, hqueries⟩ := ih (a.ask (question id offset) (asked · id offset) c).2
    have hsession := a.ask_session (question id offset) (asked · id offset) c
    have hnoted : (a.ask (question id offset) (asked · id offset) c).2.queries =
        c.queries ++ [question id offset] := by simp [Analyzer.ask]
    rw [hsession, hnoted, List.length_append, List.length_singleton] at hfound
    rw [hnoted, List.append_assoc, List.singleton_append] at hqueries
    refine ⟨fun l => ?_, hqueries⟩
    have hhere : l ∈ (asked c.session id offset).flatMap (·.toSource
        (a.ask (question id offset) (asked · id offset) c).2.session capability) ↔
          ∃ v ∈ asked c.session id offset,
            v.Yields capability (c.session.editedAll (a.edits c.queries.length)) l := by
      rw [hsession]
      simp only [List.mem_flatMap, Location.mem_toSource_iff]
    rw [locateEach, askings]
    refine List.mem_append.trans ((or_congr hhere (hfound l)).trans ?_)
    rw [List.exists_mem_cons_iff]

/-- The places in a virtual document that an offset of its document leads to. -/
def VirtualDocument.cursors (d : VirtualDocument) (capability : Capability) (offset : Nat) :
    List Nat :=
  (d.sourceMap.toSynthetic (.empty offset) capability).map (·.span.start)

/-- Only a mapping around the offset leads anywhere. -/
theorem VirtualDocument.cursors_eq_nil
    (h : ∀ m ∈ d.sourceMap.mappings, m.capabilities.allows capability →
      ¬ m.original.contains (.empty offset)) : d.cursors capability offset = [] := by
  rw [cursors, List.map_eq_nil_iff, List.eq_nil_iff_forall_not_mem]
  rintro ⟨span, m, index⟩ hfound
  obtain ⟨hat, hallows, hanswers⟩ := SourceMap.mem_toSynthetic.1 hfound
  exact h m (List.mem_of_getElem? hat) hallows hanswers.original_contains

/-- What a call about an offset of a document comes to. The virtual document `d` of the document
leads to places in it, and the analyzer is asked about each of them. -/
structure FindsAll (question : DocumentId → Nat → Query)
    (asked : Session → DocumentId → Nat → List Location) (capability : Capability) (a : Analyzer)
    (file : DocumentId) (offset : Nat) (c : Call) (out : Except Failure (List Location) × Call) :
    Prop where
  /-- A list that is returned holds what the answers yield, once each and nothing else. -/
  returned : ∀ locations, out.1 = .ok locations →
    ∃ d c', c.virtualDocument file = (.ok d, c') ∧
      out.2.queries = c.queries ++ (d.cursors capability offset).map (question d.id) ∧
      locations.Nodup ∧ (∀ l ∈ locations, l.file.isVirtual = false) ∧
      ∀ l, l ∈ locations ↔
        ∃ k ∈ askings a.edits (d.cursors capability offset) c.queries.length c'.session,
          ∃ v ∈ asked k.put d.id k.offset, v.Yields capability k.answered l
  /-- Without a mapping around the offset nothing is asked, whatever the call comes to. -/
  unasked : (∀ d c', c.virtualDocument file = (.ok d, c') →
      ∀ m ∈ d.sourceMap.mappings, m.capabilities.allows capability →
        ¬ m.original.contains (.empty offset)) → out.2.queries = c.queries

/-- A request that returns something has put the current virtual document to use. -/
theorem Call.request_ok {α : Type} {use : VirtualDocument → Call → α × Call} {r : α}
    (h : (c.request file use).1 = .ok r) :
    ∃ d c', c.virtualDocument file = (.ok d, c') ∧ r = (use d c').1 ∧
      (c.request file use).2 = (use d c').2 := by
  cases hcancelled : c.cancelled with
  | true => simp [request_of_cancelled hcancelled] at h
  | false =>
    rcases hobtained : c.virtualDocument file with ⟨failure | d, c'⟩
    · simp [request_of_failure hcancelled hobtained] at h
    · refine ⟨d, c', rfl, ?_, request_snd hcancelled hobtained⟩
      cases hfind : (use d c').2.session.find? file with
      | none => simp [request_of_closed hcancelled hobtained hfind] at h
      | some document =>
        rw [request_of_open hcancelled hobtained hfind] at h
        split at h
        · exact (Except.ok.inj h).symm
        · simp at h

theorem locate_findsAll (question : DocumentId → Nat → Query)
    (asked : Session → DocumentId → Nat → List Location) (capability : Capability) (a : Analyzer)
    (file : DocumentId) (offset : Nat) (c : Call) :
    FindsAll question asked capability a file offset c
      (locate (fun id o => a.ask (question id o) (asked · id o)) capability file offset c) := by
  have hobtains := c.virtualDocument_queries file
  rw [locate]
  constructor
  case returned =>
    intro locations hok
    obtain ⟨d, c', hobtained, rfl, hend⟩ := Call.request_ok hok
    obtain ⟨hfound, hqueries⟩ := mem_locateEach_iff question asked capability a d.id
      (d.cursors capability offset) c'
    rw [hobtained] at hobtains
    rw [hobtains] at hfound hqueries
    rw [hend]
    refine ⟨d, c', hobtained, hqueries, (firstUses_eraseDups _).nodup, fun l hl => ?_, fun l => ?_⟩
    · obtain ⟨_, _, _, _, hyields⟩ := (hfound l).1 (List.mem_eraseDups.1 hl)
      exact hyields.not_isVirtual
    · rw [← hfound l]
      exact List.mem_eraseDups
  case unasked =>
    intro hnone
    cases hcancelled : c.cancelled with
    | true => rw [Call.request_of_cancelled hcancelled]
    | false =>
      rcases hobtained : c.virtualDocument file with ⟨failure | d, c'⟩
      · rw [hobtained] at hobtains
        rw [Call.request_of_failure hcancelled hobtained]
        exact hobtains
      · have hqueries := (mem_locateEach_iff question asked capability a d.id
          (d.cursors capability offset) c').2
        rw [hobtained] at hobtains
        rw [Call.request_snd hcancelled hobtained]
        refine hqueries.trans ?_
        rw [d.cursors_eq_nil (hnone d c' hobtained), List.map_nil, List.append_nil]
        exact hobtains

/-- References and the places of a renaming are found completely, and nothing else is found. The
list has no location twice and none in a virtual document. It holds every location that the analyzer
gave in a document, about a place that the offset leads to, and every original place of one that it
gave in a virtual document. The analyzer is not asked if no mapping that may be used lies around the
offset. -/
theorem locations_justified_and_complete (a : Analyzer) (file : DocumentId) (offset : Nat)
    (c : Call) :
    FindsAll .references a.references .references a file offset c
        (a.findReferences file offset c) ∧
      FindsAll .rename a.renames .rename a file offset c (a.renameLocations file offset c) :=
  ⟨locate_findsAll .references a.references .references a file offset c,
    locate_findsAll .rename a.renames .rename a file offset c⟩

/-- Two references in the document, and a location in a script that is given twice. At the start of
the document no mapping can be used for renaming. -/
theorem locations_justified_and_complete_repeated :
    let opened := Operation.run ⟨.new {}, false, [], []⟩
      (.openDocument "<p>\x7b\x7b count \x7d\x7d\x7b\x7b count \x7d\x7d</p>".toList .markup)
    let inScript : Finding := ⟨.exactly ⟨3, 5⟩, some ⟨99, false⟩, 0, .error, none, ""⟩
    let analyzer := Analyzer.scripted
      [⟨.every "count".toList, none, 0, .error, none, ""⟩, inScript, inScript] {} []
    let out := analyzer.findReferences ⟨0, false⟩ 8 opened
    out.1 = .ok [⟨⟨0, false⟩, ⟨6, 5⟩⟩, ⟨⟨0, false⟩, ⟨17, 5⟩⟩, ⟨⟨99, false⟩, ⟨3, 5⟩⟩] ∧
      (∃ (s : Session) (v : Location),
        v.file.isVirtual ∧ v.Yields .references s ⟨⟨0, false⟩, ⟨17, 5⟩⟩) ∧
      (analyzer.renameLocations ⟨0, false⟩ 0 opened).2.queries = opened.queries := by
  intro opened inScript analyzer out
  have hout : out.1 =
      .ok [⟨⟨0, false⟩, ⟨6, 5⟩⟩, ⟨⟨0, false⟩, ⟨17, 5⟩⟩, ⟨⟨99, false⟩, ⟨3, 5⟩⟩] := by decide +kernel
  have hbare : (opened.virtualDocument ⟨0, false⟩).1.toOption.all (fun d =>
      d.sourceMap.mappings.all fun m =>
        !(m.capabilities.allows .rename && m.original.contains (.empty 0))) := by decide +kernel
  have hid : (opened.virtualDocument ⟨0, false⟩).1.toOption.all (fun d => d.id = ⟨0, true⟩) := by
    decide +kernel
  refine ⟨hout, ?_, ?_⟩
  · obtain ⟨d, c', hobtained, -, -, -, hmem⟩ :=
      (locations_justified_and_complete analyzer ⟨0, false⟩ 8 opened).1.returned _ hout
    rw [hobtained] at hid
    have hvirtual : d.id = ⟨0, true⟩ := of_decide_eq_true hid
    obtain ⟨k, -, v, hv, hyields⟩ := (hmem ⟨⟨0, false⟩, ⟨17, 5⟩⟩).1 (by decide)
    refine ⟨k.answered, v, ?_, hyields⟩
    generalize hl : Location.mk ⟨0, false⟩ ⟨17, 5⟩ = l at hyields
    cases hyields with
    | given =>
      subst hl
      simp [analyzer, inScript, Analyzer.scripted, Finding.locations, hvirtual, Place.spans] at hv
    | mapped hfile => exact hfile
  · refine (locations_justified_and_complete analyzer ⟨0, false⟩ 0 opened).2.unasked ?_
    intro d c' hobtained m hm hallows hcontains
    rw [hobtained] at hbare
    have hnone := List.all_eq_true.1 hbare m hm
    rw [hallows, hcontains] at hnone
    cases hnone

end TemplateProjection
