import TemplateProjection.Proofs.Rebuild

/-! The calls on a session as sequences of steps, and the sessions that calls can reach. -/
namespace TemplateProjection

variable {s s' : Session} {id file : DocumentId} {document document' : Document}
  {edits : List Edit} {events events' : List Event} {d : VirtualDocument}

namespace Call

variable {c c' : Call}

theorem staleFailure_of_closed (hfind : c.session.find? file = none) (requested : Option Nat) :
    c.staleFailure file requested = .unknownDocument file := by
  simp [staleFailure, waitForSettle, hfind]

theorem staleFailure_of_open (hfind : c.session.find? file = some document)
    (requested : Option Nat) :
    c.staleFailure file requested = if c.cancelled then .cancelled else
      .busy file (requested.getD document.version) document.version := by
  by_cases hcancelled : c.cancelled <;>
    simp [staleFailure, waitForSettle, Session.version?, hfind, hcancelled]

theorem attempt_queries (file : DocumentId) (attempts : Nat) (built : Option Nat) (c : Call) :
    (attempt file attempts built c).2.queries = c.queries := by
  induction attempts generalizing built c with
  | zero => rfl
  | succ attempts ih =>
    have hrebuild := c.rebuild_queries file
    rw [attempt]
    split
    · rfl
    · split
      · next heq => rwa [heq] at hrebuild
      · next heq => rwa [heq] at hrebuild
      · next built _ c' heq =>
        rw [heq] at hrebuild
        exact (ih (some built) c').trans hrebuild

/-- The analyzer is not needed to bring a virtual document up to date. -/
theorem virtualDocument_queries (c : Call) (file : DocumentId) :
    (c.virtualDocument file).2.queries = c.queries := by
  rw [virtualDocument]
  split
  · rfl
  · exact attempt_queries file rebuildAttempts none c

/-- The edits that happen during the attempts to get a virtual document. -/
def editsOfAttempt (file : DocumentId) : (attempts : Nat) → Call → List Edit
  | 0, _ => []
  | attempts + 1, c =>
    if c.cancelled then []
    else c.editsOfRebuild file ++
      match c.rebuild file with
      | (.ok (.superseded _ _), c) => editsOfAttempt file attempts c
      | _ => []

/-- What getting a virtual document comes to. -/
structure Obtains (c : Call) (file : DocumentId) (edits : List Edit)
    (out : Except Failure VirtualDocument × Call) : Prop where
  steps : Steps c.session (edits.map .edited) out.2.session
  queries : out.2.queries = c.queries
  current : ∀ d, out.1 = .ok d → ∀ document, out.2.session.find? file = some document →
    document.current? = some d
  busy : ∀ file' requested current, out.1 = .error (.busy file' requested current) →
    requested < current

theorem Obtains.of_failure {failure : Failure}
    (hsteps : Steps c.session (edits.map .edited) c'.session) (hqueries : c'.queries = c.queries)
    (hbusy : ∀ file' requested current, failure = .busy file' requested current →
      requested < current) : Obtains c file edits (.error failure, c') := by
  refine ⟨hsteps, hqueries, fun _ h => (nomatch h), fun file' requested current h => ?_⟩
  exact hbusy file' requested current (Except.error.inj h)

/-- By induction on the attempts left. When none is left, the version built last is older than the
document, which `hbuilt` records. -/
theorem attempt_obtains (he : Explains events c.session) (attempts : Nat) (built : Option Nat)
    (hbuilt : attempts = 0 → ∀ document, c.session.find? file = some document →
      ∃ version, built = some version ∧ version < document.version) :
    Obtains c file (editsOfAttempt file attempts c) (attempt file attempts built c) := by
  induction attempts generalizing c built events with
  | zero =>
    refine .of_failure (.refl _) rfl fun file' requested current hbusy => ?_
    cases hfind : c.session.find? file with
    | none => simp [staleFailure_of_closed hfind] at hbusy
    | some document =>
      obtain ⟨version, rfl, hlt⟩ := hbuilt rfl document hfind
      rw [staleFailure_of_open hfind] at hbusy
      split at hbusy
      · cases hbusy
      · cases hbusy
        exact hlt
  | succ attempts ih =>
    by_cases hcancelled : c.cancelled
    · simp only [attempt, editsOfAttempt, hcancelled, if_true]
      exact .of_failure (.refl _) rfl nofun
    · have hcase := rebuild_case he.nodup file
      have hqueries := attempt_queries file (attempts + 1) built c
      generalize hrebuild : c.rebuild file = out at hcase
      simp only [attempt, editsOfAttempt, hcancelled, hrebuild, Bool.false_eq_true, if_false]
        at hqueries ⊢
      match out with
      | (.error failure, c') =>
        rw [List.append_nil]
        exact .of_failure hcase.steps hqueries fun file' requested current hbusy =>
          absurd hbusy (hcase.not_busy file' requested current)
      | (.ok (.installed d), c') =>
        rw [List.append_nil]
        refine ⟨hcase.steps, hqueries, fun d' hd' document hfind => ?_, nofun⟩
        obtain rfl := Except.ok.inj hd'
        exact hcase.current?_of_installed hfind
      | (.ok (.superseded built version), c') =>
        obtain ⟨hlt, -, hversion, -⟩ := hcase.superseded_spec he.nodup
        obtain ⟨hsteps, -, hcurrent, hbusy⟩ := ih (he.steps hcase.steps) (some built)
          fun _ document hfind => ⟨built, rfl, hversion document hfind ▸ hlt⟩
        refine ⟨?_, hqueries, hcurrent, hbusy⟩
        rw [List.map_append]
        exact hcase.steps.trans hsteps

/-- The edits that happen while the current virtual document is fetched. -/
def editsOfVirtualDocument (c : Call) (file : DocumentId) : List Edit :=
  if (c.session.find? file).isNone then [] else editsOfAttempt file rebuildAttempts c

theorem virtualDocument_obtains (he : Explains events c.session) (file : DocumentId) :
    Obtains c file (c.editsOfVirtualDocument file) (c.virtualDocument file) := by
  rw [virtualDocument, editsOfVirtualDocument]
  split
  · exact .of_failure (.refl _) rfl nofun
  · exact attempt_obtains he rebuildAttempts none nofun

def editsOfRebuildEach (c : Call) : List DocumentId → List Edit
  | [] => []
  | file :: files => c.editsOfRebuild file ++ (c.rebuild file).2.editsOfRebuildEach files

theorem rebuildEach_steps (he : Explains events c.session) (files : List DocumentId) :
    Steps c.session ((c.editsOfRebuildEach files).map .edited) (c.rebuildEach files).2.session := by
  induction files generalizing c events with
  | nil => exact .refl _
  | cons file files ih =>
    have hsteps := (rebuild_case he.nodup file).steps
    rw [editsOfRebuildEach, List.map_append]
    exact hsteps.trans (ih (he.steps hsteps))

theorem rebuildAll_snd (c : Call) : c.rebuildAll.2 = (c.rebuildEach c.session.stale).2 := by
  rw [rebuildAll]
  dsimp only
  split <;> rfl

/-- The call once a document has been added, before its virtual document is built. -/
def added (c : Call) (text : Text) (language : Language) : Call :=
  { c with session := (c.session.add text language).2 }

theorem openDocument_spec (c : Call) (text : Text) (language : Language) :
    (c.openDocument text language).2 =
        ((c.added text language).rebuild (.ofNat c.session.nextIndex)).2 ∧
      ∀ id, (c.openDocument text language).1 = .ok id → id = .ofNat c.session.nextIndex := by
  have hid : (c.session.add text language).1 = .ofNat c.session.nextIndex := rfl
  simp only [openDocument, hid]
  rw [← added]
  generalize (c.added text language).rebuild (.ofNat c.session.nextIndex) = out
  split
  · exact ⟨rfl, nofun⟩
  · exact ⟨rfl, fun id hid => (Except.ok.inj hid).symm⟩

/-- A use of a virtual document: it is noted, edits happen, and there is an answer. -/
def useOf {α : Type} (answer : VirtualDocument → Call → α)
    (script : VirtualDocument → Call → List Edit) (mark : VirtualDocument → Query) :
    VirtualDocument → Call → α × Call :=
  fun d c => (answer d c, { c with queries := c.queries ++ [mark d] }.performAll (script d c))

/-- The edits that happen during a request, those of the use included. -/
def editsOfRequest (c : Call) (file : DocumentId) (script : VirtualDocument → Call → List Edit) :
    List Edit :=
  if c.cancelled then []
  else c.editsOfVirtualDocument file ++
    match c.virtualDocument file with
    | (.ok d, c) => script d c
    | _ => []

section request

variable {α : Type} {use : VirtualDocument → Call → α × Call}

theorem request_of_cancelled (hcancelled : c.cancelled = true) :
    c.request file use = (.error .cancelled, c) := by
  simp [request, hcancelled]

theorem request_of_failure {failure : Failure} (hcancelled : c.cancelled = false)
    (hobtained : c.virtualDocument file = (.error failure, c')) :
    c.request file use = (.error failure, c') := by
  simp [request, hcancelled, hobtained]

theorem request_of_closed (hcancelled : c.cancelled = false)
    (hobtained : c.virtualDocument file = (.ok d, c'))
    (hfind : (use d c').2.session.find? file = none) :
    c.request file use = (.error (.unknownDocument file), (use d c').2) := by
  simp [request, hcancelled, hobtained, Session.version?, hfind]

theorem request_of_open (hcancelled : c.cancelled = false)
    (hobtained : c.virtualDocument file = (.ok d, c'))
    (hfind : (use d c').2.session.find? file = some document) :
    c.request file use =
      (if document.version = d.version then .ok (use d c').1
        else .error ((use d c').2.staleFailure file (some d.version)), (use d c').2) := by
  by_cases hversion : document.version = d.version <;>
    simp [request, hcancelled, hobtained, Session.version?, hfind, hversion]

theorem request_snd (hcancelled : c.cancelled = false)
    (hobtained : c.virtualDocument file = (.ok d, c')) :
    (c.request file use).2 = (use d c').2 := by
  cases hfind : (use d c').2.session.find? file with
  | none => rw [request_of_closed hcancelled hobtained hfind]
  | some document => rw [request_of_open hcancelled hobtained hfind]

theorem request_steps (he : Explains events c.session) (file : DocumentId)
    (answer : VirtualDocument → Call → α) (script : VirtualDocument → Call → List Edit)
    (mark : VirtualDocument → Query) :
    Steps c.session ((c.editsOfRequest file script).map .edited)
      (c.request file (useOf answer script mark)).2.session := by
  cases hcancelled : c.cancelled with
  | true =>
    rw [request_of_cancelled hcancelled, editsOfRequest, if_pos hcancelled]
    exact .refl _
  | false =>
    have hsteps := (virtualDocument_obtains he file).steps
    rcases hobtained : c.virtualDocument file with ⟨failure | d, c'⟩
    · rw [hobtained] at hsteps
      simpa [request_of_failure hcancelled hobtained, editsOfRequest, hcancelled, hobtained]
        using hsteps
    · rw [hobtained] at hsteps
      simpa [request_snd hcancelled hobtained, editsOfRequest, hcancelled, hobtained, useOf]
        using hsteps.trans (.editedAll c'.session (script d c'))

end request

end Call

/-- An operation on a session. -/
inductive Operation where
  | openDocument (text : Text) (language : Language)
  | change (file : DocumentId) (text : Text)
  | close (file : DocumentId)
  | rebuild (file : DocumentId)
  | rebuildAll
  | virtualDocument (file : DocumentId)
  | renderOutline (file : DocumentId)
  | request (file : DocumentId) (script : VirtualDocument → Call → List Edit)
    (mark : VirtualDocument → Query)

namespace Operation

def run (c : Call) : Operation → Call
  | .openDocument text language => (c.openDocument text language).2
  | .change file text => c.perform (.change file text)
  | .close file => c.perform (.close file)
  | .rebuild file => (c.rebuild file).2
  | .rebuildAll => c.rebuildAll.2
  | .virtualDocument file => (c.virtualDocument file).2
  | .renderOutline file => (c.renderOutline file).2
  | .request file script mark => (c.request file (Call.useOf (fun _ _ => ()) script mark)).2

/-- What happens to the documents during an operation. -/
def happenings (c : Call) : Operation → List Event
  | .openDocument text language =>
    .opened (.ofNat c.session.nextIndex) text ::
      ((c.added text language).editsOfRebuild (.ofNat c.session.nextIndex)).map .edited
  | .change file text => [.edited (.change file text)]
  | .close file => [.edited (.close file)]
  | .rebuild file => (c.editsOfRebuild file).map .edited
  | .rebuildAll => (c.editsOfRebuildEach c.session.stale).map .edited
  | .virtualDocument file => (c.editsOfVirtualDocument file).map .edited
  | .renderOutline file => (c.editsOfVirtualDocument file).map .edited
  | .request file script _ => (c.editsOfRequest file script).map .edited

theorem steps {c : Call} (he : Explains events c.session) (operation : Operation) :
    Steps c.session (operation.happenings c) (operation.run c).session := by
  cases operation with
  | openDocument text language =>
    have hadd := Step.add c.session text language
    have hrebuild := (Call.rebuild_case (c := c.added text language)
      (he.step hadd).nodup (.ofNat c.session.nextIndex)).steps
    rw [run, (c.openDocument_spec text language).1]
    exact (Steps.single hadd).trans hrebuild
  | change file text => exact .single (.edit c.session (.change file text))
  | close file => exact .single (.edit c.session (.close file))
  | rebuild file => exact (Call.rebuild_case he.nodup file).steps
  | rebuildAll =>
    rw [run, Call.rebuildAll_snd]
    exact Call.rebuildEach_steps he c.session.stale
  | virtualDocument file => exact (Call.virtualDocument_obtains he file).steps
  | renderOutline file =>
    have hend : (c.renderOutline file).2 = (c.virtualDocument file).2 := by
      rw [Call.renderOutline]
      split <;> simp_all
    rw [run, hend]
    exact (Call.virtualDocument_obtains he file).steps
  | request file script mark => exact Call.request_steps he file (fun _ _ => ()) script mark

end Operation

/-- A session comes from another by operations. Each is its own call, with its own edits during
builds, and may be cancelled. -/
inductive Evolves : Session → List Event → Session → Prop
  | refl (s : Session) : Evolves s [] s
  | tail {s : Session} {events : List Event} {c : Call} (hevolves : Evolves s events c.session)
    (operation : Operation) :
    Evolves s (events ++ operation.happenings c) (operation.run c).session

theorem Evolves.steps (he : Explains events s) (h : Evolves s events' s') : Steps s events' s' := by
  induction h with
  | refl => exact .refl _
  | tail _ operation ih => exact ih.trans (operation.steps (he.steps ih))

/-- A session that operations can reach, with what has happened to its documents. -/
def Reachable (events : List Event) (s : Session) : Prop :=
  ∃ config, Evolves (.new config) events s

theorem Reachable.explains (h : Reachable events s) : Explains events s := by
  obtain ⟨config, hevolves⟩ := h
  have hnew := Explains.new config
  exact hnew.steps (hevolves.steps hnew)

end TemplateProjection
