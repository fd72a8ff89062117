import TemplateProjection.Code.Fragment
import TemplateProjection.Outline.Alignment
import TemplateProjection.Template.Expression

/-!
What code synthesis emits. Emissions name the places they come from in the markup; only when they
are assembled are these places resolved, if need be through the alignment with an outline.
-/
namespace TemplateProjection.Code

/-- Spans of the markup, and the literal text that is looked for in an outline to resolve them. -/
structure Origin where
  needle : Text
  spans : List Span
deriving DecidableEq, Repr

/-- Without an outline the spans stand as they are. With one, those that answer to nothing in it
are dropped. -/
def Origin.resolve (alignment : Option Outline.Alignment) (o : Origin) : List Span :=
  match alignment with
  | none => o.spans
  | some a => o.spans.filterMap fun s => (a.locate? o.needle s.start).map (⟨·, s.length⟩)

inductive Emission where
  /-- Text without a source. -/
  | code (text : Text)
  | mapped (text : Text) (origin : Origin) (mode : MappingMode) (capabilities : Capabilities)
  | quoted (text : Text) (origin : Origin) (capabilities : Capabilities) (mark : Option MappingTag)
  /-- An announcement that `text` is about to be emitted, linked as a whole for error checking. -/
  | announced (text : Text) (origin : Origin)
  /-- No text: an element with this tag is used. -/
  | tag (name : Text)
  /-- No text: the variable holds what the slot binds. -/
  | slot (name var : Text)
deriving DecidableEq, Repr

namespace Emission

/-- Code made of several parts. -/
def parts (texts : List Text) : Emission := .code texts.flatten

/-- An expression, linked by offset to where it is written. -/
def expression (e : Template.Expression) (capabilities : Capabilities) : Emission :=
  .mapped e.content ⟨e.content, [e.span]⟩ .offset capabilities

/-- The text and the mappings of an emission. -/
def fragment (alignment : Option Outline.Alignment) : Emission → Fragment
  | .code text => .plain text
  | .mapped text origin mode capabilities =>
    .mapped text (origin.resolve alignment) mode capabilities none
  | .quoted text origin capabilities mark =>
    .quoted text (origin.resolve alignment) capabilities mark
  | .announced text origin =>
    .ahead text.byteLength (origin.resolve alignment) .gate .diagnosticOnly none
  | .tag _ => .empty
  | .slot _ _ => .empty

def tag? : Emission → Option Text
  | .tag name => some name
  | _ => none

def slot? : Emission → Option (Text × Text)
  | .slot name var => some (name, var)
  | _ => none

end Emission

/-- The emissions as one fragment. -/
def assemble (alignment : Option Outline.Alignment) : List Emission → Fragment
  | [] => .empty
  | e :: es => e.fragment alignment ++ assemble alignment es

/-- Emissions, and the number of the next variable. -/
structure Output where
  emissions : List Emission
  next : Nat

/-- The name of the variable with a given number. -/
def variableName (n : Nat) : Text := "__VDS_".toList ++ Nat.toDigits 10 n

end TemplateProjection.Code
