import TemplateProjection.Markup.OpenTag
import TemplateProjection.Template.Node

/-! Loop clauses: `value in source`, `(value, key, index) of source`. -/
namespace TemplateProjection.Template

/-- The text starts with blanks, `in` or `of`, and another blank. -/
def startsSeparator (t : Text) : Bool :=
  match t with
  | c :: _ =>
    isAsciiBlank c &&
      match t.dropWhile isAsciiBlank with
      | 'i' :: 'n' :: d :: _ => isAsciiBlank d
      | 'o' :: 'f' :: d :: _ => isAsciiBlank d
      | _ => false
  | [] => false

/-- The names that a loop binds, and its source. -/
def splitClause? (e : Excerpt) : Option (Excerpt × Excerpt) :=
  let divided := e.breakAt startsSeparator
  if divided.2.text.isEmpty then none
  else some (divided.1, (divided.2.dropWhile isAsciiBlank).drop 2)

/-- The names without blanks and without the parentheses around them. -/
def bareNames (e : Excerpt) : Excerpt :=
  let e := e.trim
  let e := if e.text.head? == some '(' then e.drop 1 else e
  if e.text.getLast? == some ')' then ⟨e.start, e.text.dropLast⟩ else e

/-- The text starts with a comma after which a key, and perhaps an index, follows to the end.
Neither holds a comma, a closing brace or a closing bracket, so a pattern is never divided. -/
def startsIterators : Text → Bool
  | ',' :: t => t.count ',' ≤ 1 && !t.contains '\x7d' && !t.contains ']'
  | _ => false

/-- Divide the names into the value, the key and the index. -/
def splitNames (e : Excerpt) : Excerpt × Option Excerpt × Option Excerpt :=
  let divided := e.breakAt startsIterators
  if divided.2.text.isEmpty then (divided.1, none, none)
  else
    let iterators := divided.2.drop 1
    let index := iterators.dropWhile (· != ',')
    (divided.1, some (iterators.takeWhile (· != ',')),
      if index.text.isEmpty then none else some (index.drop 1))

/-- Read a loop clause. A text that is none is all source. -/
def LoopClause.ofExcerpt (e : Excerpt) : LoopClause :=
  match splitClause? e with
  | none => ⟨.ofExcerpt e.trim, none, none, none⟩
  | some (names, source) =>
    let parts := splitNames (bareNames names)
    ⟨.ofExcerpt source.trim, Expression.ofExcerpt? parts.1, parts.2.1.bind Expression.ofExcerpt?,
      parts.2.2.bind Expression.ofExcerpt?⟩

/-- The loop clause that an attribute holds. -/
def LoopClause.ofAttribute (a : Markup.Attribute) : LoopClause :=
  match a.value with
  | some v => .ofExcerpt ⟨v.span.start, v.text⟩
  | none => .ofExcerpt ⟨a.span.stop, []⟩

end TemplateProjection.Template
