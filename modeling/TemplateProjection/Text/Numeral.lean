import TemplateProjection.Text.Basic

/-! Decimal numerals: `-1`, `.5`, `2.`, `1e-3`, and the names of infinity and of no number. -/
namespace TemplateProjection.Text

/-- One or more digits, after a sign if there is one. -/
def isSignedDigits : Text → Bool
  | c :: t =>
    let digits := if c == '+' || c == '-' then t else c :: t
    !digits.isEmpty && digits.all Char.isDigit
  | [] => false

/-- Nothing, or `e` and an integer. -/
def isExponent : Text → Bool
  | [] => true
  | c :: t => (c == 'e' || c == 'E') && isSignedDigits t

/-- Digits with at most one point and at least one digit, then perhaps an exponent. -/
def isUnsignedNumeral (t : Text) : Bool :=
  let whole := t.takeWhile Char.isDigit
  match t.dropWhile Char.isDigit with
  | '.' :: rest =>
    !(whole.isEmpty && (rest.takeWhile Char.isDigit).isEmpty) &&
      isExponent (rest.dropWhile Char.isDigit)
  | rest => !whole.isEmpty && isExponent rest

/-- A numeral, with a sign or without. -/
def isNumeral (t : Text) : Bool :=
  let unsigned := match t with
    | '+' :: rest => rest
    | '-' :: rest => rest
    | t => t
  isUnsignedNumeral unsigned ||
    ["inf", "infinity", "nan"].any fun name => eqIgnoringCase unsigned name.toList

end TemplateProjection.Text
