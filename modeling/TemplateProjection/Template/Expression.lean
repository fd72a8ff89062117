import TemplateProjection.Markup.Entity
import TemplateProjection.Text.Blank
import TemplateProjection.Text.Numeral

/-! Expressions of the template language. They are kept as text and not read any further. -/
namespace TemplateProjection.Template

structure Expression where
  content : Text
  span : Span
  /-- Written out in the template; false for what is computed when the template runs. -/
  isStatic : Bool
  /-- A literal, which refers to nothing. -/
  isConstant : Bool
deriving DecidableEq, Repr

/-- The text after an opening quote is closed by its last character, and `p` holds of none before
it. -/
def closedBy (quote : Char) (p : Char → Bool) (t : Text) : Bool :=
  t.getLast? == some quote && !t.dropLast.any p

/-- A keyword for a value, a number or a plain string. -/
def isLiteral (t : Text) : Bool :=
  let t := t.trim
  ["true", "false", "null", "undefined"].any (·.toList == t) ||
    match t with
    | [] => false
    | c :: rest =>
      ((c.isDigit || c == '.' || c == '-') && Text.isNumeral (c :: rest)) ||
        ((c == '\'' || c == '"') && closedBy c (· == c) rest) ||
        (c == '\x60' && closedBy c (fun d => d == c || d == '$') rest)

/-- The expression written at a span, with characters for the references in it. -/
def Expression.ofText (t : Text) (span : Span) : Expression :=
  let content := Entity.normalize t
  ⟨content, span, false, isLiteral content⟩

def Expression.ofExcerpt (e : Excerpt) : Expression := .ofText e.text e.span

/-- The trimmed excerpt as an expression, if there is anything in it. -/
def Expression.ofExcerpt? (e : Excerpt) : Option Expression :=
  if e.trim.text.isEmpty then none else some (.ofExcerpt e.trim)

end TemplateProjection.Template
