import TemplateProjection.Markup.Tree
import TemplateProjection.Text.Split

/-! Markup with each tag, text line, comment and declaration on a line of its own. -/
namespace TemplateProjection.Markup

/-- A value stands between double quotes, or between single ones if it holds a double quote. -/
def Attribute.render (a : Attribute) : Text :=
  match a.value with
  | none => a.name
  | some v =>
    let quote := if v.text.contains '"' then '\'' else '"'
    a.name ++ ['=', quote] ++ v.text ++ [quote]

/-- The tag without the `>` or `/>` at its end. -/
def OpenTag.renderOpen (tag : OpenTag) : Text :=
  '<' :: tag.name ++ tag.attributes.flatMap fun a => ' ' :: a.render

def renderEndTag (name : Text) : Text := "</".toList ++ name ++ ['>']

/-- Blank text is no content. -/
def Node.isContent : Node → Bool
  | .text t _ => !t.trim.isEmpty
  | _ => true

/-- Two spaces for each level. -/
def indentation (depth : Nat) : Text := List.replicate (2 * depth) ' '

mutual

/-- The lines of a node. A comment's data is kept as it is, line feeds included. -/
def Node.printLines (depth : Nat) : Node → List Text
  | .text t _ =>
    ((t.lines.map Text.trim).filter (!·.isEmpty)).map (indentation depth ++ ·)
  | .comment data _ => [indentation depth ++ "<!--".toList ++ data ++ "-->".toList]
  | .declaration t _ => [indentation depth ++ t]
  | .element tag children _ _ =>
    let head := indentation depth ++ tag.renderOpen
    if tag.selfClosing then [head ++ "/>".toList]
    else if isVoid tag.name then [head ++ ['>']]
    else if children.any Node.isContent then
      [head ++ ['>']] ++ printAllLines (depth + 1) children ++
        [indentation depth ++ renderEndTag tag.name]
    else [head ++ ['>'] ++ renderEndTag tag.name]

def printAllLines (depth : Nat) : List Node → List Text
  | [] => []
  | node :: nodes => node.printLines depth ++ printAllLines depth nodes

end

/-- One construct per line, indented by nesting. -/
def prettyPrint (nodes : List Node) : Text := Text.join ['\n'] (printAllLines 0 nodes)

end TemplateProjection.Markup
