import TemplateProjection.Analysis.Diagnostic
import TemplateProjection.Analysis.TokenType
import TemplateProjection.Session.Call

/-! Analyzers of virtual documents. What they find out is carried back to the documents. -/
namespace TemplateProjection

/-- A span of a document. -/
structure Location where
  file : DocumentId
  span : Span
deriving DecidableEq, Repr

/-- A part of a virtual document with its classification. -/
structure ClassifiedSpan where
  span : Span
  classification : UInt32
deriving DecidableEq, Repr

/-- An analyzer answers questions about virtual documents, which it sees as the session has them
installed. `edits n` is what happens to the session during question number `n` of a call. -/
structure Analyzer where
  references : Session → DocumentId → (offset : Nat) → List Location
  renames : Session → DocumentId → (offset : Nat) → List Location
  classifications : Session → DocumentId → Span → List ClassifiedSpan
  diagnostics : Session → DocumentId → List Diagnostic
  encoding : TokenEncoding := {}
  edits : Nat → List Edit := fun _ => []

/-- Put a question to an analyzer. Edits happen after the answer has been found. -/
def Analyzer.ask {α : Type} (a : Analyzer) (question : Query) (answer : Session → α) (c : Call) :
    α × Call :=
  (answer c.session,
    Call.performAll { c with queries := c.queries ++ [question] } (a.edits c.queries.length))

/-- The diagnostics of a document. Those about code without a source are dropped. -/
def Analyzer.documentDiagnostics (a : Analyzer) (file : DocumentId) (c : Call) :
    Except Failure (List Diagnostic) × Call :=
  c.request file fun document c =>
    let (found, c) := a.ask (.diagnostics document.id) (a.diagnostics · document.id) c
    (found.filterMap fun d =>
      (document.sourceMap.firstOriginal? d.span .diagnostic).map fun m => { d with span := m.span },
      c)

end TemplateProjection
