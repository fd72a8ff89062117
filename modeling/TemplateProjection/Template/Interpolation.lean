import TemplateProjection.Template.Node
import TemplateProjection.Text.Search

/-! Interpolations, written between two opening and two closing braces within a text. -/
namespace TemplateProjection.Template

def openBraces : Text := "\x7b\x7b".toList

def closeBraces : Text := "\x7d\x7d".toList

/-- A piece of a text. -/
inductive Segment where
  | plain (text : Excerpt)
  /-- An interpolation, given by what stands between its braces. -/
  | interpolation (inner : Excerpt)
deriving DecidableEq, Repr

/-- The segment as it is written. -/
def Segment.excerpt : Segment → Excerpt
  | .plain text => text
  | .interpolation inner => ⟨inner.start - 2, openBraces ++ inner.text ++ closeBraces⟩

/-- The text before the first interpolation, the inside of it, and what follows. -/
def firstInterpolation? (t : Text) : Option (Text × Text × Text) := do
  let (before, t) ← Text.around? openBraces t
  let (inner, after) ← Text.around? closeBraces t
  return (before, inner, after)

theorem firstInterpolation?_append {t before inner after : Text}
    (h : firstInterpolation? t = some (before, inner, after)) :
    before ++ openBraces ++ inner ++ closeBraces ++ after = t := by
  simp only [firstInterpolation?, Option.bind_eq_bind, Option.bind_eq_some_iff] at h
  obtain ⟨⟨a, u⟩, hu, ⟨b, c⟩, hc, he⟩ := h
  cases he
  simpa [← Text.append_of_around? hu] using Text.append_of_around? hc

/-- The segments of a text. Opening braces that are not closed are plain. -/
def segments (e : Excerpt) : List Segment :=
  match h : firstInterpolation? e.text with
  | none => [.plain e]
  | some (before, inner, after) =>
    have : after.length < e.text.length := by
      rw [← firstInterpolation?_append h]
      simp [openBraces]
      omega
    let innerStart := e.start + before.byteLength + 2
    .plain ⟨e.start, before⟩ :: .interpolation ⟨innerStart, inner⟩ ::
      segments ⟨innerStart + inner.byteLength + 2, after⟩
termination_by e.text.length

/-- The node of a segment. Blank plain text has none. -/
def Segment.node? : Segment → Option Node
  | .plain text =>
    if text.text.trim.isEmpty then none
    else some (.text (Entity.normalize text.text) text.span)
  | .interpolation inner =>
    some (.interpolation (.ofExcerpt inner.trim) (Segment.interpolation inner).excerpt)

/-- The nodes of a text. -/
def textNodes (e : Excerpt) : List Node := (segments e).filterMap Segment.node?

end TemplateProjection.Template
