import TemplateProjection.Markup.Tree
import TemplateProjection.Outline.Tag

/-!
The items of an outline. Lines are read one after another into entries; entries nest by indentation
alone; items are rendered as markup without line breaks between tags.
-/
namespace TemplateProjection.Outline

inductive Item where
  | element (tag : Tag) (children : List Item)
  | text (text : Text)
  | comment (data : Text)
  /-- Markup that is passed through. -/
  | markup (text : Text)

/-- An element as its own line gives it. -/
structure ElementLine where
  tag : Tag
  children : List Item
  /-- The line ends in a `.`: the block below is text. -/
  textBelow : Bool

/-- Text after one space belongs to the element. -/
def inlineText : Text → List Item
  | ' ' :: c :: t => [.text (c :: t)]
  | _ => []

/-- Read an element line. After `tag:` a child element follows on the same line. -/
def readElement (content : Text) (lines : List Line) : ElementLine × List Line :=
  let head := readHead content lines
  match h : head.rest with
  | ['.'] => (⟨⟨head.name, head.attributes, false⟩, [], true⟩, head.lines)
  | '/' :: rest => (⟨⟨head.name, head.attributes, true⟩, inlineText rest, false⟩, head.lines)
  | ':' :: rest =>
    have : (Text.trimStart rest).length + size head.lines < content.length + size lines := by
      have hsize := readHead_size_le content lines
      have hblank := Text.length_dropWhile_le isBlank rest
      simp only [head] at h ⊢
      simp only [h, List.length_cons] at hsize
      simp only [Text.trimStart]
      omega
    let child := readElement (Text.trimStart rest) head.lines
    (⟨⟨head.name, head.attributes, false⟩, [.element child.1.tag child.1.children], false⟩, child.2)
  | rest => (⟨⟨head.name, head.attributes, false⟩, inlineText rest, false⟩, head.lines)
termination_by content.length + size lines

/-- What an entry stands for: an item, or an element to which the entries below it belong. -/
inductive EntryItem where
  | leaf (item : Item)
  | parent (tag : Tag) (children : List Item)

/-- A nonempty line together with the lines that it takes for itself. -/
structure Entry where
  indent : Nat
  item : EntryItem

/-- The data of a comment: the rest of its line, then the block below. -/
def commentData (rest block : Text) : Text :=
  if block.isEmpty then rest
  else if rest.trim.isEmpty then block
  else rest ++ '\n' :: block

/-- An element line as an entry. If its block is text, the block is its last child. -/
def elementEntry (indent : Nat) (element : ElementLine) (lines : List Line) :
    Entry × List Line :=
  if element.textBelow then
    let block := blockText indent lines
    let children := element.children ++ if block.isEmpty then [] else [.text block]
    (⟨indent, .leaf (.element element.tag children)⟩, afterBlock indent lines)
  else (⟨indent, .parent element.tag element.children⟩, lines)

/-- Read the entry that starts with `line`. A silent comment is none. -/
def readEntry (line : Line) (lines : List Line) : Option Entry × List Line :=
  let block := blockText line.indent lines
  let after := afterBlock line.indent lines
  let leaf := fun item => some ⟨line.indent, .leaf item⟩
  match line.content with
  | '/' :: '/' :: '-' :: _ => (none, after)
  | '/' :: '/' :: rest => (leaf (.comment (commentData rest block)), after)
  | '|' :: ' ' :: rest => (leaf (.text rest), lines)
  | '|' :: rest => (leaf (.text rest), lines)
  | ['.'] => (leaf (.text block), after)
  | '<' :: rest => (leaf (.markup ('<' :: rest)), lines)
  | content =>
    let element := readElement content lines
    let entry := elementEntry line.indent element.1 element.2
    (some entry.1, entry.2)

theorem readElement_length_le (content : Text) (lines : List Line) :
    (readElement content lines).2.length ≤ lines.length := by
  fun_induction readElement content lines with
  | case1 content lines head h => exact readHead_lines_length_le content lines
  | case2 content lines head rest h => exact readHead_lines_length_le content lines
  | case3 content lines head rest h _ _ ih =>
    exact Nat.le_trans ih (readHead_lines_length_le content lines)
  | case4 content lines head rest h => exact readHead_lines_length_le content lines

theorem elementEntry_length_le (indent : Nat) (element : ElementLine) (lines : List Line) :
    (elementEntry indent element lines).2.length ≤ lines.length := by
  simp only [elementEntry]
  split
  · exact afterBlock_length_le indent lines
  · exact Nat.le_refl _

theorem readEntry_length_le (line : Line) (lines : List Line) :
    (readEntry line lines).2.length ≤ lines.length := by
  simp only [readEntry]
  split
  · exact afterBlock_length_le _ _
  · exact afterBlock_length_le _ _
  · exact Nat.le_refl _
  · exact Nat.le_refl _
  · exact afterBlock_length_le _ _
  · exact Nat.le_refl _
  · exact Nat.le_trans (elementEntry_length_le _ _ _) (readElement_length_le _ _)

/-- The entries of an outline, in the order of its lines. -/
def entries : List Line → List Entry
  | [] => []
  | line :: lines =>
    if line.isEmpty then entries lines
    else
      have := Nat.lt_succ_of_le (readEntry_length_le line lines)
      (readEntry line lines).1.toList ++ entries (readEntry line lines).2
termination_by lines => lines.length

/-- Nest entries: to an element belong the entries after it that are indented more. -/
def nest : List Entry → List Item
  | [] => []
  | ⟨_, .leaf item⟩ :: rest => item :: nest rest
  | ⟨indent, .parent tag children⟩ :: rest =>
    .element tag (children ++ nest (rest.takeWhile (indent < ·.indent))) ::
      nest (rest.dropWhile (indent < ·.indent))
termination_by entries => entries.length
decreasing_by
  · simp
  · exact Nat.lt_succ_of_le (List.takeWhile_sublist _).length_le
  · exact Nat.lt_succ_of_le (List.dropWhile_sublist _).length_le

def Item.isText : Item → Bool
  | .text _ => true
  | _ => false

def Tag.renderOpen (tag : Tag) : Text :=
  '<' :: tag.name ++ tag.attributes.flatMap fun a => ' ' :: a.render

mutual

def Item.render : Item → Text
  | .element tag children =>
    if tag.selfClosing then tag.renderOpen ++ "/>".toList
    else if Markup.isVoid tag.name then tag.renderOpen ++ ['>']
    else tag.renderOpen ++ ['>'] ++ renderAll false children ++ "</".toList ++ tag.name ++ ['>']
  | .text text => text
  | .comment data => "<!--".toList ++ data ++ " -->".toList
  | .markup text => text

/-- A line feed divides adjacent texts; `afterText` tells whether a text came just before. -/
def renderAll (afterText : Bool) : List Item → Text
  | [] => []
  | item :: items =>
    (if afterText && item.isText then ['\n'] else []) ++ item.render ++ renderAll item.isText items

end

/-- The items of an outline. -/
def parse (t : Text) : List Item := nest (entries (linesOf t))

/-- The outline as markup without line breaks between tags. -/
def compile (t : Text) : Text := renderAll false (parse t)

end TemplateProjection.Outline
