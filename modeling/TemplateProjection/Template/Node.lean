import TemplateProjection.Template.Expression

/-!
Template trees. Structural directives are applied already: what carries a condition is a branch of
a conditional, what carries a loop clause is the body of a loop, and neither directive remains among
the properties.
-/
namespace TemplateProjection.Template

/-- A plain attribute such as `id="x"`. -/
structure Attribute where
  name : Text
  value : Option Text
  loc : Excerpt
deriving DecidableEq, Repr

/-- `v-name:argument.modifier="value"`, or a form with `:`, `@` or `#` in front. -/
structure Directive where
  /-- Without the `v-` in front. -/
  name : Text
  argument : Option Expression
  value : Option Expression
  modifiers : List Text
  loc : Excerpt
deriving DecidableEq, Repr

inductive Property where
  | attribute (a : Attribute)
  | directive (d : Directive)
deriving DecidableEq, Repr

def Property.loc : Property → Excerpt
  | .attribute a => a.loc
  | .directive d => d.loc

/-- What is known of an element without its children. -/
structure ElementHead where
  tag : Text
  properties : List Property
  /-- From the opening tag to the end of the end tag. -/
  loc : Excerpt
  endName : Option Span
  selfClosing : Bool
deriving DecidableEq, Repr

namespace ElementHead

/-- The tag name in the opening tag. -/
def tagSpan (head : ElementHead) : Span := ⟨head.loc.start + 1, head.tag.byteLength⟩

def isTemplate (head : ElementHead) : Bool := head.tag == "template".toList

end ElementHead

/-- `(value, key, index) in source`. -/
structure LoopClause where
  source : Expression
  value : Option Expression
  key : Option Expression
  index : Option Expression
deriving DecidableEq, Repr

mutual

inductive Node where
  | element (head : ElementHead) (children : List Node)
  | text (content : Text) (span : Span)
  | comment (content : Text) (span : Span)
  | interpolation (value : Expression) (loc : Excerpt)
  | conditional (branches : List Branch) (loc : Excerpt)
  | loop (clause : LoopClause) (children : List Node) (loc : Excerpt)
  /-- A construct that templates give no meaning. -/
  | other (kind : Text) (loc : Excerpt)

/-- A branch of a conditional. The last one may have no condition. -/
inductive Branch where
  | mk (condition : Option Expression) (children : List Node) (loc : Excerpt)

end

def Branch.condition? : Branch → Option Expression
  | .mk condition _ _ => condition

def Branch.loc : Branch → Excerpt
  | .mk _ _ loc => loc

end TemplateProjection.Template
