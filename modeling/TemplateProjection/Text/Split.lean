import TemplateProjection.Text.Blank

/-! Splitting a text at a character, and into lines. -/
namespace TemplateProjection.Text

/-- The pieces between the occurrences of a character. There is always at least one piece. -/
def split (sep : Char) : Text → List Text
  | [] => [[]]
  | c :: t =>
    if c = sep then [] :: split sep t
    else match split sep t with
      | [] => [[c]]
      | piece :: pieces => (c :: piece) :: pieces

theorem split_ne_nil (sep : Char) (t : Text) : split sep t ≠ [] := by
  cases t with
  | nil => simp [split]
  | cons c t =>
    simp only [split]
    split
    · simp
    · split <;> simp

/-- The text between consecutive pieces is `sep`. -/
def join (sep : Text) (pieces : List Text) : Text := List.intercalate sep pieces

/-- The lines of a text. A carriage return before a line feed belongs to the line's end, and the
text after the last line feed is a line only if there is some. -/
def lines (t : Text) : List Text :=
  let pieces := split '\n' t
  pieces.dropLast.map (fun line => (before? ['\r'] line).getD line) ++
    pieces.getLast?.toList.filter (!·.isEmpty)

/-- The pieces between line feeds, each without blanks at its ends. -/
def trimmedLines (t : Text) : List Text := (split '\n' t).map trim

end TemplateProjection.Text
