import TemplateProjection.Text.Search

/-! Character references for the four characters that markup reserves. -/
namespace TemplateProjection.Entity

/-- Put the characters for `&gt;`, `&lt;`, `&amp;` and `&quot;`. The four replacements run one after
another in this order, so `&amp;gt;` becomes `&gt;`. -/
def normalize (t : Text) : Text :=
  Text.replace "&quot;".toList ['"']
    (Text.replace "&amp;".toList ['&']
      (Text.replace "&lt;".toList ['<']
        (Text.replace "&gt;".toList ['>'] t)))

/-- Whether a text can hold a reference at all. -/
def mayOccurIn (t : Text) : Bool := t.contains '&'

/-- The reference for a reserved character, any other character itself. -/
def escapeChar : Char → Text
  | '&' => "&amp;".toList
  | '<' => "&lt;".toList
  | '>' => "&gt;".toList
  | '"' => "&quot;".toList
  | c => [c]

/-- The text as it is written between double quotes. -/
def escape (t : Text) : Text := t.flatMap escapeChar

end TemplateProjection.Entity
