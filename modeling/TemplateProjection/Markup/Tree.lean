import TemplateProjection.Markup.Entity
import TemplateProjection.Markup.OpenTag
import TemplateProjection.Markup.Token

/-! Trees of elements, texts, comments and declarations. Every text has a tree. -/
namespace TemplateProjection.Markup

inductive Node where
  /-- `endName` is the span of the name in the end tag, if there is one. -/
  | element (tag : OpenTag) (children : List Node) (span : Span) (endName : Option Span)
  | text (text : Text) (span : Span)
  | comment (data : Text) (span : Span)
  | declaration (text : Text) (span : Span)

def Node.span : Node → Span
  | .element _ _ span _ => span
  | .text _ span => span
  | .comment _ span => span
  | .declaration _ span => span

/-- The elements that never have content or an end tag. -/
def voidElements : List String :=
  ["area", "base", "br", "col", "embed", "hr", "img", "input", "link", "meta", "param", "source",
    "track", "wbr"]

def isVoid (name : Text) : Bool := voidElements.any fun v => Text.eqIgnoringCase v.toList name

/-- An element whose end has not been seen, with the children read so far. -/
structure OpenElement where
  tag : OpenTag
  children : List Node

/-- The element, ending at `stop`. -/
def OpenElement.close (e : OpenElement) (stop : Nat) (endName : Option Span) : Node :=
  .element e.tag e.children (.between e.tag.span.start stop) endName

/-- A tree being built: the finished roots, and the open elements with the innermost first. -/
structure Builder where
  roots : List Node
  pending : List OpenElement

/-- Put text after its siblings. It joins a text that ends where it starts. -/
def appendText (siblings : List Node) (e : Excerpt) : List Node :=
  match siblings.getLast? with
  | some (.text before span) =>
    if span.stop = e.start then
      siblings.dropLast ++ [.text (before ++ e.text) (span.cover e.span)]
    else siblings ++ [.text e.text e.span]
  | _ => siblings ++ [.text e.text e.span]

/-- The name that an end tag closes. -/
def endTagName (tag : Text) : Text :=
  ((dropOpeners tag).dropTrailing (· == '>')).trimEnd
where
  dropOpeners : Text → Text
    | '<' :: '/' :: t => dropOpeners t
    | t => t

/-- The data of a comment, without the marks around it. -/
def commentData (comment : Text) : Text :=
  let data := (Text.after? "<!--".toList comment).getD comment
  (Text.before? "-->".toList data).getD data

namespace Builder

/-- Change the list of siblings that is being read. -/
def modify (f : List Node → List Node) : Builder → Builder
  | ⟨roots, []⟩ => ⟨f roots, []⟩
  | ⟨roots, e :: pending⟩ => ⟨roots, ⟨e.tag, f e.children⟩ :: pending⟩

def push (b : Builder) (node : Node) : Builder := b.modify (· ++ [node])

/-- Close the innermost open element with the given name. The elements inside it end where the end
tag starts; `inner` is the last one closed. -/
def closeThrough (name : Text) (tag : Span) (roots : List Node) :
    (inner : Option Node) → List OpenElement → Builder
  | inner, [] => ⟨roots ++ inner.toList, []⟩
  | inner, e :: pending =>
    let e : OpenElement := ⟨e.tag, e.children ++ inner.toList⟩
    if e.tag.name.eqIgnoringCase name then
      push ⟨roots, pending⟩ (e.close tag.stop (some ⟨tag.start + 2, name.byteLength⟩))
    else closeThrough name tag roots (some (e.close tag.start none)) pending

/-- Read an end tag. It is ignored if no open element has its name. -/
def close (b : Builder) (tag : Excerpt) : Builder :=
  let name := endTagName tag.text
  if b.pending.any (·.tag.name.eqIgnoringCase name) then
    closeThrough name tag.span b.roots none b.pending
  else b

/-- Close what is open at the end of the text; `inner` is the last element closed. -/
def finishAt (stop : Nat) (roots : List Node) : (inner : Option Node) → List OpenElement → List Node
  | inner, [] => roots ++ inner.toList
  | inner, e :: pending =>
    finishAt stop roots
      (some (OpenElement.close ⟨e.tag, e.children ++ inner.toList⟩ stop none)) pending

/-- Read an opening tag. A void element and one closed by its own tag have no content. -/
def openTag (b : Builder) (tag : OpenTag) : Builder :=
  if tag.selfClosing || isVoid tag.name then b.push (.element tag [] tag.span none)
  else ⟨b.roots, ⟨tag, []⟩ :: b.pending⟩

def step (b : Builder) (token : Token) : Builder :=
  match token.kind with
  | .text | .strayLt => b.modify (appendText · token.toExcerpt)
  | .comment => b.push (.comment (commentData token.text) token.span)
  | .declaration => b.push (.declaration token.text token.span)
  | .openTag => b.openTag (.ofExcerpt token.toExcerpt)
  | .endTag => b.close token.toExcerpt

end Builder

/-- The tree of a text. -/
def parse (t : Text) : List Node :=
  let b := (Token.lex t).foldl Builder.step ⟨[], []⟩
  Builder.finishAt t.byteLength b.roots none b.pending

def Attribute.normalize (a : Attribute) : Attribute :=
  ⟨a.name, a.nameSpan, a.value.map fun v => ⟨Entity.normalize v.text, v.span⟩, a.span⟩

def OpenTag.normalize (tag : OpenTag) : OpenTag :=
  ⟨tag.name, tag.attributes.map Attribute.normalize, tag.selfClosing, tag.span⟩

mutual

/-- Put characters for the references in texts, comments and attribute values. -/
def Node.normalize : Node → Node
  | .element tag children span endName =>
    .element tag.normalize (normalizeAll children) span endName
  | .text text span => .text (Entity.normalize text) span
  | .comment data span => .comment (Entity.normalize data) span
  | .declaration text span => .declaration text span

def normalizeAll : List Node → List Node
  | [] => []
  | node :: nodes => node.normalize :: normalizeAll nodes

end

end TemplateProjection.Markup
