import TemplateProjection.Markup.Tree
import TemplateProjection.Text.Split

/-! Outlines of markup trees. -/
namespace TemplateProjection.Outline

/-- How nesting is indented: by a number of spaces, or by one tab, for each level. -/
structure Style where
  indentWidth : Nat := 2
  useTabs : Bool := false
deriving DecidableEq, Repr

def Style.indent (style : Style) (depth : Nat) : Text :=
  if style.useTabs then List.replicate depth '\t'
  else List.replicate (depth * style.indentWidth) ' '

/-- An attribute on one line; without a value it gets an empty one. -/
def attributeText (a : Markup.Attribute) : Text :=
  let value := Text.join [' '] ((a.value.map (·.text.trimmedLines)).getD [])
  let quote := if value.contains '"' then '\'' else '"'
  a.name ++ ['=', quote] ++ value ++ [quote]

def headText (tag : Markup.OpenTag) : Text :=
  if tag.attributes.isEmpty then tag.name
  else tag.name ++ ['('] ++ Text.join ", ".toList (tag.attributes.map attributeText) ++ [')']

/-- A text of one line is piped, one of several lines is a block. -/
def textLines (style : Style) (depth : Nat) (t : Text) : List Text :=
  if t.contains '\n' then
    (style.indent depth ++ ['.']) :: t.trimmedLines.map (style.indent (depth + 1) ++ ·)
  else [style.indent depth ++ "| ".toList ++ t]

def commentLines (style : Style) (depth : Nat) (data : Text) : List Text :=
  match data.trimmedLines with
  | [line] => [style.indent depth ++ "// ".toList ++ line]
  | lines => (style.indent depth ++ "//".toList) :: lines.map (style.indent (depth + 1) ++ ·)

/-- The text that may stand on its element's line: one line of text, if nothing but blank text and
declarations precedes it. -/
def leadingText? : List Markup.Node → Option Text
  | [] => none
  | .text t _ :: nodes =>
    if t.trim.isEmpty then leadingText? nodes
    else if t.trim.contains '\n' then none
    else some t.trim
  | .declaration _ _ :: nodes => leadingText? nodes
  | _ :: _ => none

mutual

/-- The lines of a node. Blank text and declarations have none. -/
def nodeLines (style : Style) (depth : Nat) : Markup.Node → List Text
  | .text t _ => if t.trim.isEmpty then [] else textLines style depth t.trim
  | .comment data _ => commentLines style depth data
  | .declaration _ _ => []
  | .element tag children _ _ =>
    let head := style.indent depth ++ headText tag
    match if tag.attributes.isEmpty then leadingText? children else none with
    | some t => (head ++ ' ' :: t) :: linesAfterLead style (depth + 1) children
    | none => head :: allLines style (depth + 1) children

def allLines (style : Style) (depth : Nat) : List Markup.Node → List Text
  | [] => []
  | node :: nodes => nodeLines style depth node ++ allLines style depth nodes

/-- The lines of siblings without their leading text. -/
def linesAfterLead (style : Style) (depth : Nat) : List Markup.Node → List Text
  | [] => []
  | .text t _ :: nodes =>
    if t.trim.isEmpty then linesAfterLead style depth nodes else allLines style depth nodes
  | _ :: nodes => linesAfterLead style depth nodes

end

/-- The outline of a markup tree. -/
def ofMarkup (style : Style) (nodes : List Markup.Node) : Text :=
  Text.join ['\n'] (allLines style 0 nodes)

end TemplateProjection.Outline
