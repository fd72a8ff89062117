import TemplateProjection.Markup.OpenTag
import TemplateProjection.Template.Node
import TemplateProjection.Text.Split

/-! Attributes of markup as properties of a template element. -/
namespace TemplateProjection.Template

/-- The parts of a directive's name. -/
structure DirectiveName where
  name : Text
  argument : Option Excerpt
  modifiers : List Text
deriving DecidableEq, Repr

/-- The nonempty pieces between dots. -/
def modifiersOf (t : Text) : List Text := (t.split '.').filter (!·.isEmpty)

/-- Read an argument and modifiers. An argument in brackets ends at the first closing bracket, any
other before the first dot. -/
def DirectiveName.withArgument (name : Text) (e : Excerpt) : DirectiveName :=
  let divided :=
    if e.text.head? == some '[' then
      let inside := e.takeWhile (· != ']')
      let rest := e.dropWhile (· != ']')
      (Excerpt.mk e.start (inside.text ++ rest.text.take 1), rest.text.drop 1)
    else (e.takeWhile (· != '.'), e.text.dropWhile (· != '.'))
  ⟨name, if divided.1.text.isEmpty then none else some divided.1, modifiersOf divided.2⟩

/-- Read the name of an attribute as that of a directive. -/
def DirectiveName.read? (e : Excerpt) : Option DirectiveName :=
  match e.text with
  | 'v' :: '-' :: _ =>
    let isName := fun (c : Char) => c.isAlphanum || c == '-'
    let name := ((e.drop 2).takeWhile isName).text
    let rest := (e.drop 2).dropWhile isName
    if rest.text.head? == some ':' then some (.withArgument name (rest.drop 1))
    else some ⟨name, none, modifiersOf rest.text⟩
  | ':' :: _ => some (.withArgument "bind".toList (e.drop 1))
  | '@' :: _ => some (.withArgument "on".toList (e.drop 1))
  | '#' :: _ => some (.withArgument "slot".toList (e.drop 1))
  | _ => none

/-- An argument in brackets is computed; its span covers the brackets. -/
def argumentExpression (e : Excerpt) : Expression :=
  if e.text.head? == some '[' then
    ⟨Text.dropTrailing (· == ']') (e.text.dropWhile (· == '[')), e.span, false, false⟩
  else ⟨e.text, e.span, true, true⟩

/-- A part of a text with its place in it. -/
def locate (source : Text) (span : Span) : Excerpt := ⟨span.start, source.slice span⟩

/-- The property that an attribute in `source` stands for. -/
def propertyOf (source : Text) (a : Markup.Attribute) : Property :=
  match DirectiveName.read? ⟨a.nameSpan.start, a.name⟩ with
  | none =>
    .attribute ⟨a.name, a.value.map fun v => Entity.normalize v.text, locate source a.span⟩
  | some d =>
    .directive ⟨d.name, d.argument.map argumentExpression,
      a.value.map fun v => .ofText v.text v.span, d.modifiers, locate source a.span⟩

/-- The expression of a condition. Without a value the condition always holds. -/
def conditionOf (a : Markup.Attribute) : Expression :=
  match a.value with
  | some v => .ofText v.text v.span
  | none => ⟨"true".toList, .empty a.span.stop, false, true⟩

end TemplateProjection.Template
