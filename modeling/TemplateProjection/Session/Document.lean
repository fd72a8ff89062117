import TemplateProjection.Code.Projection
import TemplateProjection.Session.DocumentId
import TemplateProjection.Text.LineTable

/-! Documents and the virtual documents made from them. -/
namespace TemplateProjection

/-- How the template of a document is written. -/
inductive Language where
  | markup
  | outline
deriving DecidableEq, Repr

/-- The code made from one version of a document. -/
structure VirtualDocument where
  id : DocumentId
  version : Nat
  /-- The text of the document from which it was made. -/
  source : Text
  /-- For an outline, the markup that was made from it first. -/
  markup : Option Text
  projection : Code.Projection
deriving DecidableEq, Repr

namespace VirtualDocument

/-- Make the virtual document of a text. This fails for an outline without a layout. -/
def build? (id : DocumentId) (source : Text) (version : Nat) : Language → Option VirtualDocument
  | .markup => some ⟨id.virtual, version, source, none, Code.projectMarkup source⟩
  | .outline => do
    let markup ← Outline.toMarkup? source
    return ⟨id.virtual, version, source, some markup, Code.projectOutline source markup⟩

def text (d : VirtualDocument) : Text := d.projection.text

def sourceMap (d : VirtualDocument) : SourceMap := d.projection.sourceMap

def sourceLines (d : VirtualDocument) : LineTable := .ofText d.source

/-- The document's template as markup. -/
def templateMarkup (d : VirtualDocument) : Text := d.markup.getD d.source

end VirtualDocument

/-- A document that is open: its text and version, and the virtual document installed last. -/
structure Document where
  language : Language
  text : Text
  version : Nat
  installed : Option VirtualDocument
deriving DecidableEq, Repr

namespace Document

/-- The installed virtual document, if it was made from the current version. -/
def current? (d : Document) : Option VirtualDocument :=
  d.installed.filter (·.version == d.version)

/-- The document with a new text, which is a new version. -/
def change (d : Document) (text : Text) : Document :=
  { d with text, version := d.version + 1 }

end Document

end TemplateProjection
