import TemplateProjection.Text.Split

/-! Lines of an outline and the text blocks below them. -/
namespace TemplateProjection.Outline

/-- A line without the blanks at its end, divided into the blanks in front and the rest. -/
structure Line where
  indentation : Text
  content : Text
deriving DecidableEq, Repr

namespace Line

def ofText (t : Text) : Line :=
  ⟨t.trimEnd.takeWhile isBlank, t.trimEnd.dropWhile isBlank⟩

/-- The depth of the line: the bytes of its indentation. -/
def indent (line : Line) : Nat := line.indentation.byteLength

def isEmpty (line : Line) : Bool := line.content.isEmpty

def text (line : Line) : Text := line.indentation ++ line.content

/-- The line belongs to the block below a line with the given indent. -/
def isBelow (indent : Nat) (line : Line) : Bool := line.isEmpty || indent < line.indent

/-- The line without its first `n` bytes; nothing is left if there is no cut there. -/
def dropBytes (n : Nat) (line : Line) : Text := (line.text.from? n).getD []

end Line

def linesOf (t : Text) : List Line := t.lines.map Line.ofText

/-- The lines below a line with the given indent, up to the last that is not empty. -/
def blockLines (indent : Nat) (lines : List Line) : List Line :=
  ((lines.takeWhile (Line.isBelow indent)).reverse.dropWhile Line.isEmpty).reverse

/-- What follows the block. -/
def afterBlock (indent : Nat) (lines : List Line) : List Line :=
  lines.drop (blockLines indent lines).length

/-- The least indent of a nonempty line. -/
def commonIndent (lines : List Line) : Nat :=
  ((lines.filter (!·.isEmpty)).map Line.indent).min?.getD 0

/-- The block below a line as one text, without the indentation that its lines share. -/
def blockText (indent : Nat) (lines : List Line) : Text :=
  let block := blockLines indent lines
  Text.join ['\n'] (block.map (Line.dropBytes (commonIndent block)))

theorem afterBlock_length_le (indent : Nat) (lines : List Line) :
    (afterBlock indent lines).length ≤ lines.length := by
  simp [afterBlock]

end TemplateProjection.Outline
