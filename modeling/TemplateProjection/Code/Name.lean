import TemplateProjection.Text.Lowercase

/-! Names of properties and events, in camel case and with hyphens. -/
namespace TemplateProjection.Code

/-- The ASCII characters of a word. -/
def isWordChar (c : Char) : Bool := c.isAlphanum || c == '_'

/-- Drop each `-` before a word character and put that character in upper case. -/
def camelize : Text → Text
  | '-' :: c :: t => if isWordChar c then c.toUpper :: camelize t else '-' :: camelize (c :: t)
  | c :: t => c :: camelize t
  | [] => []

/-- Put a `-` before each ASCII capital that follows a word character. -/
def markCapitals : (afterWord : Bool) → Text → Text
  | _, [] => []
  | afterWord, c :: t =>
    (if c.isUpper && afterWord then ['-', c] else [c]) ++ markCapitals (isWordChar c) t

/-- The name in lower case, with a `-` before each capital that follows a word character. -/
def hyphenate (name : Text) : Text := (markCapitals false name).lowercase

/-- The key under which a property is declared. A name without capitals is put in camel case. -/
def propertyKey (name : Text) : Text := if hyphenate name = name then camelize name else name

end TemplateProjection.Code
