import TemplateProjection.Analysis.Analyzer

/-! References to what stands at an offset, and the places that renaming it has to change. -/
namespace TemplateProjection

/-- The places in documents that answer to a place found by an analyzer. One in a virtual document
is carried over by the mappings installed at that moment; any other stays as it is. -/
def Location.toSource (session : Session) (capability : Capability) (l : Location) :
    List Location :=
  if l.file.isVirtual then
    match session.installed? l.file with
    | none => []
    | some document =>
      (document.sourceMap.toOriginal l.span capability).map fun m => ⟨l.file.original, m.span⟩
  else [l]

/-- Ask about each of the offsets in turn, and carry each answer back as it comes. -/
def locateEach (ask : (offset : Nat) → Call → List Location × Call) (capability : Capability) :
    (offsets : List Nat) → Call → List Location × Call
  | [], c => ([], c)
  | offset :: offsets, c =>
    let (found, c) := ask offset c
    let here := found.flatMap (·.toSource c.session capability)
    let (rest, c) := locateEach ask capability offsets c
    (here ++ rest, c)

/-- Ask about every place in the virtual document that an offset leads to. -/
def locate (ask : DocumentId → (offset : Nat) → Call → List Location × Call)
    (capability : Capability) (file : DocumentId) (offset : Nat) (c : Call) :
    Except Failure (List Location) × Call :=
  c.request file fun document c =>
    let cursors := document.sourceMap.toSynthetic (.empty offset) capability
    let (found, c) := locateEach (ask document.id) capability (cursors.map (·.span.start)) c
    (found.eraseDups, c)

namespace Analyzer

/-- All references to what stands at an offset of a document. -/
def findReferences (a : Analyzer) (file : DocumentId) (offset : Nat) (c : Call) :
    Except Failure (List Location) × Call :=
  locate (fun file offset => a.ask (.references file offset) (a.references · file offset))
    .references file offset c

/-- All places to change when what stands at an offset is renamed. -/
def renameLocations (a : Analyzer) (file : DocumentId) (offset : Nat) (c : Call) :
    Except Failure (List Location) × Call :=
  locate (fun file offset => a.ask (.rename file offset) (a.renames · file offset))
    .rename file offset c

end Analyzer

end TemplateProjection
