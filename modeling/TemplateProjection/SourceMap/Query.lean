import TemplateProjection.SourceMap.Mapping

/-! Queries over the mappings of one text. Mappings overlap, so a query may have several answers. -/
namespace TemplateProjection

/-- The mappings of an original text and the text synthesised from it, in order. -/
structure SourceMap where
  mappings : List Mapping
deriving DecidableEq, Repr

/-- A span found by way of a mapping, which stands at `index`. -/
structure MappedSpan where
  span : Span
  mapping : Mapping
  index : Nat
deriving DecidableEq, Repr

namespace SourceMap

/-- Carry a span over by every mapping that allows the capability. -/
def query (map : SourceMap) (carry : Mapping → Option Span) (c : Capability) : List MappedSpan :=
  map.mappings.zipIdx.filterMap fun (m, index) =>
    if m.capabilities.allows c then (carry m).map fun span => ⟨span, m, index⟩ else none

/-- The synthetic spans that answer to an original one. -/
def toSynthetic (map : SourceMap) (span : Span) (c : Capability) : List MappedSpan :=
  map.query (·.toSynthetic? span) c

/-- The original spans that answer to a synthetic one. -/
def toOriginal (map : SourceMap) (span : Span) (c : Capability) : List MappedSpan :=
  map.query (·.toOriginal? span) c

/-- An original span that answers to a synthetic one, by the first mapping that has any. -/
def firstOriginal? (map : SourceMap) (span : Span) (c : Capability) : Option MappedSpan :=
  map.mappings.zipIdx.findSome? fun (m, index) =>
    if m.capabilities.allows c then (m.toOriginal? span).map fun found => ⟨found, m, index⟩
    else none

end SourceMap

end TemplateProjection
