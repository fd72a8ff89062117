import TemplateProjection.Outline.OfMarkup
import TemplateProjection.Session.Document

/-! The documents of a session. -/
namespace TemplateProjection

/-- Settings of a session; times are in milliseconds. -/
structure Config where
  /-- A document has settled after this long without a change. -/
  settleInterval : Nat := 400
  /-- How long to wait for a document to settle. -/
  maxSettle : Nat := 10000
  /-- The most bytes for which semantic tokens are computed. -/
  semanticTokensLimit : Nat := 100000
  style : Outline.Style := {}
deriving DecidableEq, Repr

/-- A session: its settings, the index of the next document, and the open documents in order. Every
operation takes a document's identifier or that of its virtual counterpart. -/
structure Session where
  config : Config
  nextIndex : Nat
  documents : List (DocumentId × Document)
deriving DecidableEq, Repr

namespace Session

def new (config : Config) : Session := ⟨config, 0, []⟩

def find? (s : Session) (id : DocumentId) : Option Document := s.documents.lookup id.original

def ids (s : Session) : List DocumentId := s.documents.map Prod.fst

def version? (s : Session) (id : DocumentId) : Option Nat := (s.find? id).map (·.version)

def sourceText? (s : Session) (id : DocumentId) : Option Text := (s.find? id).map (·.text)

/-- The installed virtual document, whatever version it was made from. -/
def installed? (s : Session) (id : DocumentId) : Option VirtualDocument :=
  (s.find? id).bind (·.installed)

/-- Change an open document. -/
def modify (s : Session) (id : DocumentId) (f : Document → Document) : Session :=
  { s with
    documents := s.documents.map fun e => if e.1 = id.original then (e.1, f e.2) else e }

/-- Add a document under the next index, at version 1. -/
def add (s : Session) (text : Text) (language : Language) : DocumentId × Session :=
  let id := DocumentId.ofNat s.nextIndex
  let document : Document := ⟨language, text, 1, none⟩
  let documents :=
    if (s.find? id).isSome then (s.modify id fun _ => document).documents
    else s.documents ++ [(id, document)]
  (id, { s with nextIndex := s.nextIndex + 1, documents })

/-- Close a document. The last document takes its place. -/
def close (s : Session) (id : DocumentId) : Session :=
  match s.find? id, s.documents.getLast? with
  | some _, some last =>
    { s with
      documents :=
        if last.1 = id.original then s.documents.dropLast
        else s.documents.dropLast.map fun e => if e.1 = id.original then last else e }
  | _, _ => s

/-- The documents whose installed virtual document is missing or out of date. -/
def stale (s : Session) : List DocumentId :=
  (s.documents.filter (·.2.current?.isNone)).map Prod.fst

end Session

end TemplateProjection
