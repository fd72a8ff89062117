import TemplateProjection.Analysis.Analyzer
import TemplateProjection.Text.Search

/-! Analyzers that answer every question from a list of findings. -/
namespace TemplateProjection

/-- How a finding is located in a virtual document. -/
inductive Place where
  | exactly (span : Span)
  /-- Each occurrence of a text. -/
  | every (needle : Text)
  /-- A text at its first occurrence in another, at the first occurrence of that one. -/
  | within (context inner : Text)
deriving DecidableEq, Repr

/-- Something that a scripted analyzer reports; without a file, about the file it is asked about. -/
structure Finding where
  place : Place
  file : Option DocumentId
  classification : UInt32
  severity : Severity
  code : Option String
  message : String
deriving DecidableEq, Repr

/-- The spans of a place in a text. -/
def Place.spans (text : Option Text) : Place → List Span
  | .exactly span => [span]
  | .every needle =>
    (text.map (Text.occurrences needle)).getD [] |>.map (⟨·, needle.byteLength⟩)
  | .within context inner =>
    match text.bind (Text.around? context), Text.around? inner context with
    | some (before, _), some (lead, _) =>
      [⟨before.byteLength + lead.byteLength, inner.byteLength⟩]
    | _, _ => []

/-- Where a finding lies, given the file that is asked about. -/
def Finding.locations (session : Session) (file : DocumentId) (f : Finding) : List Location :=
  let file := f.file.getD file
  (f.place.spans ((session.installed? file).map (·.text))).map (⟨file, ·⟩)

/-- The analyzer that reports the findings, with edits during the first question of a call. -/
def Analyzer.scripted (findings : List Finding) (encoding : TokenEncoding) (during : List Edit) :
    Analyzer where
  references session file _ := findings.flatMap (·.locations session file)
  renames session file _ := findings.flatMap (·.locations session file)
  classifications session file _ :=
    findings.flatMap fun f => (f.locations session file).map (⟨·.span, f.classification⟩)
  diagnostics session file :=
    findings.flatMap fun f =>
      (f.locations session file).map (⟨·.span, f.severity, f.code, f.message⟩)
  encoding := encoding
  edits n := if n = 0 then during else []

end TemplateProjection
