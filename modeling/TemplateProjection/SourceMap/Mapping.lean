import TemplateProjection.SourceMap.Capability
import TemplateProjection.Text.Basic

/-! Links between spans of an original text and spans of the text synthesised from it. -/
namespace TemplateProjection

/-- How the parts of two linked spans answer to each other. -/
inductive MappingMode where
  /-- The spans have one length, and offsets carry over. -/
  | offset
  /-- Only the whole of one span answers to the whole of the other. -/
  | gate
deriving DecidableEq, Repr

/-- What the synthesised text is. -/
inductive MappingTag where
  | elementTag
  | property
deriving DecidableEq, Repr

structure Mapping where
  original : Span
  synthetic : Span
  mode : MappingMode
  capabilities : Capabilities
  tag : Option MappingTag
deriving DecidableEq, Repr

namespace MappingMode

/-- Carry a span over from `source` to `target`. -/
def transfer? (mode : MappingMode) (source target span : Span) : Option Span :=
  match mode with
  | .offset =>
    if source.contains span then
      some ⟨target.start + (span.start - source.start), span.length⟩
    else none
  | .gate => if span = source then some target else none

end MappingMode

namespace Mapping

def toSynthetic? (m : Mapping) (span : Span) : Option Span :=
  m.mode.transfer? m.original m.synthetic span

def toOriginal? (m : Mapping) (span : Span) : Option Span :=
  m.mode.transfer? m.synthetic m.original span

/-- The original offset that answers to a synthetic one. -/
def originalOffset? (m : Mapping) (offset : Nat) : Option Nat :=
  (m.toOriginal? (.empty offset)).map Span.start

/-- The mapping after `offset` more bytes have been put in front of the synthetic text. -/
def shift (m : Mapping) (offset : Nat) : Mapping := { m with synthetic := m.synthetic.shift offset }

end Mapping

end TemplateProjection
