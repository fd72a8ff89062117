import TemplateProjection.Text.Blank
import TemplateProjection.Text.Search

/-! Tokens of markup. Every text has tokens: what forms no tag, comment or declaration is text. -/
namespace TemplateProjection.Markup

inductive TokenKind where
  | comment
  | endTag
  | openTag
  | declaration
  | text
  /-- A `<` that starts nothing. -/
  | strayLt
deriving DecidableEq, Repr

structure Token extends Excerpt where
  kind : TokenKind
deriving DecidableEq, Repr

/-- The first token of a text, and what follows it. -/
structure Lexeme where
  kind : TokenKind
  text : Text
  rest : Text
deriving DecidableEq, Repr

/-- Divide a text after its first `>`. -/
def throughGt? : Text → Option (Text × Text)
  | [] => none
  | c :: t =>
    if c = '>' then some ([c], t)
    else (throughGt? t).map fun (head, rest) => (c :: head, rest)

/-- Divide a text after the first `>` outside quotes; `quote` is the quote that is open. Without
such a `>` everything belongs to the tag. -/
def throughTagEnd : (quote : Option Char) → Text → Text × Text
  | _, [] => ([], [])
  | some q, c :: t =>
    let (head, rest) := throughTagEnd (if c = q then none else some q) t
    (c :: head, rest)
  | none, c :: t =>
    if c = '>' then ([c], t)
    else
      let (head, rest) := throughTagEnd (if c = '"' || c = '\'' then some c else none) t
      (c :: head, rest)

namespace Lexeme

/-- A construct that ends at the next `>`; without one, the whole text is plain text. -/
def closedByGt (kind : TokenKind) (t : Text) : Lexeme :=
  match throughGt? t with
  | some (head, rest) => ⟨kind, '<' :: head, rest⟩
  | none => ⟨.text, '<' :: t, []⟩

/-- An opening tag, given what follows its `<`. -/
def openTag (t : Text) : Lexeme :=
  let isName := fun c => !(isBlank c || c == '/' || c == '>')
  let (tail, rest) := throughTagEnd none (t.dropWhile isName)
  ⟨.openTag, '<' :: (t.takeWhile isName ++ tail), rest⟩

/-- A comment, given what follows its `<!--`. -/
def comment (t : Text) : Lexeme :=
  match Text.around? "-->".toList t with
  | some (data, rest) => ⟨.comment, "<!--".toList ++ data ++ "-->".toList, rest⟩
  | none => ⟨.comment, "<!--".toList ++ t, []⟩

/-- The first token of a text that starts with `<`, given what follows it. -/
def ofMarkup (t : Text) : Lexeme :=
  match Text.after? "!--".toList t with
  | some data => comment data
  | none =>
    match t with
    | '/' :: _ => closedByGt .endTag t
    | '?' :: _ => closedByGt .declaration t
    | '!' :: c :: _ => if c.isAlpha then closedByGt .declaration t else ⟨.strayLt, ['<'], t⟩
    | c :: _ => if c.isAlpha then openTag t else ⟨.strayLt, ['<'], t⟩
    | [] => ⟨.strayLt, ['<'], t⟩

/-- The first token of the text with first character `c` and remaining characters `t`. -/
def first (c : Char) (t : Text) : Lexeme :=
  if c = '<' then ofMarkup t
  else ⟨.text, c :: t.takeWhile (· != '<'), t.dropWhile (· != '<')⟩

end Lexeme

theorem throughGt?_append {t head rest : Text} (h : throughGt? t = some (head, rest)) :
    head ++ rest = t := by
  induction t generalizing head with
  | nil => simp [throughGt?] at h
  | cons c t ih =>
    simp only [throughGt?] at h
    split at h
    · cases h
      simp
    · obtain ⟨⟨a, b⟩, hab, he⟩ := Option.map_eq_some_iff.1 h
      cases he
      simp [ih hab]

theorem throughTagEnd_append (quote : Option Char) (t : Text) :
    (throughTagEnd quote t).1 ++ (throughTagEnd quote t).2 = t := by
  induction t generalizing quote with
  | nil => cases quote <;> rfl
  | cons c t ih =>
    cases quote with
    | some q => simp [throughTagEnd, ih]
    | none =>
      simp only [throughTagEnd]
      split
      · simp
      · simp [ih]

namespace Lexeme

theorem closedByGt_append (kind : TokenKind) (t : Text) :
    (closedByGt kind t).text ++ (closedByGt kind t).rest = '<' :: t := by
  simp only [closedByGt]
  split
  · next h => simp [throughGt?_append h]
  · simp

theorem openTag_append (t : Text) : (openTag t).text ++ (openTag t).rest = '<' :: t := by
  simp only [openTag, List.cons_append, List.append_assoc, throughTagEnd_append]
  simp

theorem comment_append (t : Text) :
    (comment t).text ++ (comment t).rest = "<!--".toList ++ t := by
  simp only [comment]
  split
  · next h => simpa using Text.append_of_around? h
  · simp

theorem ofMarkup_append (t : Text) : (ofMarkup t).text ++ (ofMarkup t).rest = '<' :: t := by
  simp only [ofMarkup]
  split
  · next h => simpa [comment_append] using Text.append_of_after? h
  · split
    · exact closedByGt_append _ _
    · exact closedByGt_append _ _
    · split
      · exact closedByGt_append _ _
      · rfl
    · split
      · exact openTag_append _
      · rfl
    · rfl

/-- The first token and what follows it make up the text. -/
theorem first_append (c : Char) (t : Text) : (first c t).text ++ (first c t).rest = c :: t := by
  simp only [first]
  split
  · next h => simp [ofMarkup_append, h]
  · simp

theorem first_text_ne_nil (c : Char) (t : Text) : (first c t).text ≠ [] := by
  simp only [first, ofMarkup, comment, closedByGt, openTag]
  repeat' split
  all_goals simp

theorem first_rest_length_lt (c : Char) (t : Text) :
    (first c t).rest.length < (c :: t).length := by
  have happ := congrArg List.length (first_append c t)
  have hpos := List.length_pos_iff.2 (first_text_ne_nil c t)
  simp only [List.length_append] at happ
  omega

end Lexeme

namespace Token

/-- The tokens of a text that starts at `offset`. -/
def lexFrom (offset : Nat) : Text → List Token
  | [] => []
  | c :: t =>
    let lexeme := Lexeme.first c t
    ⟨⟨offset, lexeme.text⟩, lexeme.kind⟩ ::
      lexFrom (offset + lexeme.text.byteLength) lexeme.rest
termination_by t => t.length
decreasing_by exact Lexeme.first_rest_length_lt c t

/-- The tokens of a text, in order. -/
def lex (t : Text) : List Token := lexFrom 0 t

/-- Each end tag becomes as many spaces as it has bytes, so that offsets stay. -/
def blank (token : Token) : Text :=
  if token.kind = .endTag then List.replicate token.text.byteLength ' ' else token.text

end Token

/-- The text with its end tags blanked out; offsets into it are offsets into the text. -/
def blankEndTags (t : Text) : Text := (Token.lex t).flatMap Token.blank

end TemplateProjection.Markup
