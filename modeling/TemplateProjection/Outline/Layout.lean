import TemplateProjection.Markup.Printer
import TemplateProjection.Outline.Alignment
import TemplateProjection.Outline.Item

/-! Markup of an outline, each line indented as the outline indents the same text. -/
namespace TemplateProjection.Outline

def isIndentChar (c : Char) : Bool := c == ' ' || c == '\t'

/-- The spaces and tabs at the end of a text. They are cut off one byte after the start of the
character before them, which is no place to cut if that character has more than one byte. -/
def trailingIndent? (t : Text) : Option Text :=
  match t.reverse.dropWhile isIndentChar with
  | c :: _ => if c.utf8Size = 1 then some (t.reverse.takeWhile isIndentChar).reverse else none
  | [] => some t

/-- The text by which a markup line is looked for in the outline. The last line of a comment carries
a closing mark that the outline lacks. -/
def lineNeedle (line : Text) : Text :=
  match (Text.before? "-->".toList line).map Text.trimEnd with
  | some (c :: t) => c :: t
  | _ => line

/-- Indent the markup line at `offset` as its text is indented in the outline. A line that answers
to nothing in the outline stays as it is. -/
def reindentLine? (a : Alignment) (offset : Nat) (line : Text) : Option Text :=
  let content := line.trimStart
  match a.locate? (lineNeedle content) (offset + Text.byteLength (line.takeWhile isBlank)) with
  | some outlineOffset => do
    let before ← a.outline.upTo? outlineOffset
    let indent ← trailingIndent? before
    return indent ++ content
  | none => some line

def reindentLines? (a : Alignment) : (offset : Nat) → List Text → Option (List Text)
  | _, [] => some []
  | offset, line :: lines => do
    let first ← reindentLine? a offset line
    let rest ← reindentLines? a (offset + line.byteLength + 1) lines
    return first :: rest

/-- Give each line of the markup the indentation that its text has in the outline. -/
def reindent? (outline markup : Text) : Option Text := do
  let lines ← reindentLines? (.ofTexts outline markup) 0 (markup.split '\n')
  return Text.trim (Text.join ['\n'] lines)

/-- The markup of an outline, laid out as the outline is. -/
def toMarkup? (outline : Text) : Option Text :=
  reindent? outline (Markup.prettyPrint (Markup.normalizeAll (Markup.parse (compile outline))))

end TemplateProjection.Outline
