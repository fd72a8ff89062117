import TemplateProjection.Markup.Token

/-!
Alignment of an outline with the markup made from it. The two texts share no structure, only literal
text, so the i-th occurrence of a needle in the markup answers to its i-th occurrence in the
outline. A needle that does not occur equally often in both answers to nothing.
-/
namespace TemplateProjection.Outline

structure Alignment where
  outline : Text
  /-- The markup with its end tags blanked out: an outline has no end tags. -/
  markup : Text
deriving DecidableEq, Repr

/-- Where a needle occurs in the two texts. -/
structure Occurrences where
  outline : List Nat
  markup : List Nat
deriving DecidableEq, Repr

/-- The outline offset that answers to a markup offset. -/
def Occurrences.outlineOffset? (o : Occurrences) (offset : Nat) : Option Nat :=
  if o.outline.length = o.markup.length then (o.markup.zip o.outline).lookup offset else none

namespace Alignment

def ofTexts (outline markup : Text) : Alignment := ⟨outline, Markup.blankEndTags markup⟩

def occurrences (a : Alignment) (needle : Text) : Occurrences :=
  ⟨Text.occurrences needle a.outline, Text.occurrences needle a.markup⟩

/-- The outline offset of the needle that starts at an offset of the markup. -/
def locate? (a : Alignment) (needle : Text) (offset : Nat) : Option Nat :=
  if needle.isEmpty then none else (a.occurrences needle).outlineOffset? offset

end Alignment

/-- An alignment that remembers the occurrences of the needles it was asked about. -/
structure AlignmentMemo where
  alignment : Alignment
  known : List (Text × Occurrences)

namespace AlignmentMemo

def ofTexts (outline markup : Text) : AlignmentMemo := ⟨.ofTexts outline markup, []⟩

/-- Look a needle up, and remember its occurrences if they are new. -/
def locate (m : AlignmentMemo) (needle : Text) (offset : Nat) : Option Nat × AlignmentMemo :=
  if needle.isEmpty then (none, m)
  else match m.known.lookup needle with
    | some occurrences => (occurrences.outlineOffset? offset, m)
    | none =>
      let occurrences := m.alignment.occurrences needle
      (occurrences.outlineOffset? offset, ⟨m.alignment, (needle, occurrences) :: m.known⟩)

/-- A summary of the sizes involved. -/
def describe (m : AlignmentMemo) : String :=
  s!"OffsetMapper \x7b original_len: {m.alignment.outline.byteLength}, " ++
    s!"generated_len: {m.alignment.markup.byteLength}, " ++
    s!"cached_needles: {m.known.length} \x7d"

end AlignmentMemo

end TemplateProjection.Outline
