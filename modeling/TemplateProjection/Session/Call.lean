import TemplateProjection.Session.Failure
import TemplateProjection.Session.Store

/-!
Calls on a session. Documents may be edited while a call is under way; the edits are part of the
call, each at the point at which it happens.
-/
namespace TemplateProjection

/-- What can happen to a session while a call is under way. -/
inductive Edit where
  | change (file : DocumentId) (text : Text)
  | close (file : DocumentId)
  | cancel
deriving DecidableEq, Repr

/-- A question put to the analyzer. -/
inductive Query where
  | references (file : DocumentId) (offset : Nat)
  | rename (file : DocumentId) (offset : Nat)
  | classify (file : DocumentId) (span : Span)
  | diagnostics (file : DocumentId)
deriving DecidableEq, Repr

/-- The state of a call: the session, whether the call was cancelled, for each document the edits
that happen during its next builds, and the questions put to the analyzer so far. -/
structure Call where
  session : Session
  cancelled : Bool := false
  builds : List (DocumentId × List (List Edit)) := []
  queries : List Query := []

/-- What a rebuild comes to. -/
inductive Rebuilt where
  | installed (document : VirtualDocument)
  /-- The document changed meanwhile, and nothing was installed. -/
  | superseded (built current : Nat)
deriving DecidableEq, Repr

namespace Call

/-- An edit happens. One that names an unknown document has no effect. -/
def perform (c : Call) : Edit → Call
  | .change file text => { c with session := c.session.modify file (·.change text) }
  | .close file => { c with session := c.session.close file }
  | .cancel => { c with cancelled := true }

def performAll (c : Call) (edits : List Edit) : Call := edits.foldl perform c

/-- Edits happen while `document` is being built; the first part of the result is the document as it
was when last open. -/
def performDuringBuild (file : DocumentId) : List Edit → Document → Call → Document × Call
  | [], document, c => (document, c)
  | edit :: edits, document, c =>
    let c := c.perform edit
    performDuringBuild file edits ((c.session.find? file).getD document) c

/-- The edits that happen during the next build of a document, and the call without them. -/
def nextBuild (c : Call) (file : DocumentId) : List Edit × Call :=
  let next := ((c.builds.lookup file.original).getD []).head?
  let builds := c.builds.map fun b => if b.1 = file.original then (b.1, b.2.drop 1) else b
  (next.getD [], { c with builds })

def install (c : Call) (document : VirtualDocument) : Call :=
  { c with
    session := c.session.modify document.id fun d => { d with installed := some document } }

/-- Bring the virtual document of a document up to date. It is built from the text and version at
the start, and installed only if that version is still the current one at the end. -/
def rebuild (c : Call) (file : DocumentId) : Except Failure Rebuilt × Call :=
  match c.session.find? file with
  | none => (.error (.unknownDocument file), c)
  | some document =>
    match document.current? with
    | some current => (.ok (.installed current), c)
    | none =>
      let (edits, c) := c.nextBuild file
      let (last, c) := performDuringBuild file edits document c
      match VirtualDocument.build? file.original document.text document.version
          document.language with
      | none => (.error (.noLayout file), c)
      | some built =>
        if last.version = document.version then (.ok (.installed built), c.install built)
        else (.ok (.superseded document.version last.version), c)

/-- Open a document and build its virtual document. -/
def openDocument (c : Call) (text : Text) (language : Language) :
    Except Failure DocumentId × Call :=
  let (id, session) := c.session.add text language
  match rebuild { c with session } id with
  | (.error (.noLayout file), c) => (.error (.noLayout file), c)
  | (_, c) => (.ok id, c)

def rebuildEach (c : Call) : List DocumentId → List (DocumentId × Except Failure Rebuilt) × Call
  | [] => ([], c)
  | file :: files =>
    let (result, c) := c.rebuild file
    let (results, c) := c.rebuildEach files
    ((file, result) :: results, c)

/-- Rebuild every document that is out of date. Those closed meanwhile are left out. -/
def rebuildAll (c : Call) : Except Failure (List (DocumentId × Rebuilt)) × Call :=
  let (results, c) := c.rebuildEach c.session.stale
  let unbuilt := results.find? fun
    | (_, .error (.noLayout _)) => true
    | _ => false
  match unbuilt with
  | some (file, _) => (.error (.noLayout file), c)
  | none => (.ok (results.filterMap fun (file, result) => result.toOption.map (file, ·)), c)

/-- Wait until a document has gone without an edit for a while. No edit happens meanwhile. -/
def waitForSettle (c : Call) (file : DocumentId) : Except Failure Unit :=
  if (c.session.find? file).isNone then .error (.unknownDocument file)
  else if c.cancelled then .error .cancelled
  else .ok ()

/-- The failure of a call that worked on version `requested`, once edits have settled. -/
def staleFailure (c : Call) (file : DocumentId) (requested : Option Nat) : Failure :=
  match c.waitForSettle file with
  | .error failure => failure
  | .ok () =>
    let current := (c.session.version? file).getD 0
    .busy file (requested.getD current) current

/-- Try to get an up-to-date virtual document. `built` is the version that was built last. -/
def attempt (file : DocumentId) : (attempts : Nat) → (built : Option Nat) → Call →
    Except Failure VirtualDocument × Call
  | 0, built, c => (.error (c.staleFailure file built), c)
  | attempts + 1, _, c =>
    if c.cancelled then (.error .cancelled, c)
    else match c.rebuild file with
      | (.error failure, c) => (.error failure, c)
      | (.ok (.installed document), c) => (.ok document, c)
      | (.ok (.superseded built _), c) => attempt file attempts (some built) c

/-- How often a virtual document is built before the call gives up. -/
def rebuildAttempts : Nat := 3

/-- The virtual document of the current version. -/
def virtualDocument (c : Call) (file : DocumentId) : Except Failure VirtualDocument × Call :=
  if (c.session.find? file).isNone then (.error (.unknownDocument file), c)
  else attempt file rebuildAttempts none c

/-- Put the current virtual document to use. If the document changed meanwhile, the result is of no
use and the call fails. -/
def request {α : Type} (c : Call) (file : DocumentId)
    (use : VirtualDocument → Call → α × Call) : Except Failure α × Call :=
  if c.cancelled then (.error .cancelled, c)
  else match c.virtualDocument file with
    | (.error failure, c) => (.error failure, c)
    | (.ok document, c) =>
      let (result, c) := use document c
      match c.session.version? file with
      | none => (.error (.unknownDocument file), c)
      | some version =>
        if version = document.version then (.ok result, c)
        else (.error (c.staleFailure file (some document.version)), c)

/-- The document's template as an outline, in the style of the session. -/
def renderOutline (c : Call) (file : DocumentId) : Except Failure Text × Call :=
  match c.virtualDocument file with
  | (.error failure, c) => (.error failure, c)
  | (.ok document, c) =>
    (.ok (Outline.ofMarkup c.session.config.style (Markup.parse document.templateMarkup)), c)

end Call

end TemplateProjection
