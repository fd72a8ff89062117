import TemplateProjection.SourceMap.Mapping

/-! Pieces of synthesised text with the mappings into them. -/
namespace TemplateProjection.Code

/-- A text and its mappings, whose synthetic spans count from the start of the text. -/
structure Fragment where
  text : Text
  mappings : List Mapping
deriving DecidableEq, Repr

namespace Fragment

def empty : Fragment := ⟨[], []⟩

/-- Put one fragment after another. -/
def append (f g : Fragment) : Fragment :=
  ⟨f.text ++ g.text, f.mappings ++ g.mappings.map (·.shift f.text.byteLength)⟩

instance : Append Fragment := ⟨append⟩

/-- Text without mappings. -/
def plain (code : Text) : Fragment := ⟨code, []⟩

/-- The mapping of `length` bytes at the start of a fragment. Spans of different length cannot be
linked offset by offset. -/
def mappingTo (length : Nat) (mode : MappingMode) (capabilities : Capabilities)
    (tag : Option MappingTag) (original : Span) : Mapping :=
  { original, capabilities, tag
    synthetic := ⟨0, length⟩
    mode := if original.length = length then mode else .gate }

/-- Mappings for `length` bytes that are yet to be written. -/
def ahead (length : Nat) (originals : List Span) (mode : MappingMode) (capabilities : Capabilities)
    (tag : Option MappingTag) : Fragment :=
  ⟨[], originals.map (mappingTo length mode capabilities tag)⟩

/-- Text that is linked to each of the given spans. -/
def mapped (code : Text) (originals : List Span) (mode : MappingMode) (capabilities : Capabilities)
    (tag : Option MappingTag) : Fragment :=
  ahead code.byteLength originals mode capabilities tag ++ plain code

/-- Text in single quotes. With its quotes it is linked as a whole, without them by offset. -/
def quoted (code : Text) (originals : List Span) (capabilities : Capabilities)
    (tag : Option MappingTag) : Fragment :=
  ahead (code.byteLength + 2) originals .gate capabilities tag ++ plain ['\''] ++
    mapped code originals .offset capabilities tag ++ plain ['\'']

end Fragment

end TemplateProjection.Code
