import TemplateProjection.Outline.Attribute
import TemplateProjection.Outline.Line

/-! The heads of elements: a name, class and id shorthands, and an attribute list. -/
namespace TemplateProjection.Outline

structure Tag where
  name : Text
  attributes : List Attribute
  selfClosing : Bool
deriving DecidableEq, Repr

/-- `.name` and `#name`. -/
inductive Shorthand where
  | className (name : Text)
  | id (name : Text)
deriving DecidableEq, Repr

def Shorthand.className? : Shorthand → Option Text
  | .className name => some name
  | .id _ => none

def Shorthand.attribute? : Shorthand → Option Attribute
  | .className _ => none
  | .id name => some ⟨"id".toList, some name, false⟩

def isNameChar (c : Char) : Bool := c.isAlphanum || c == '-' || c == '_' || c == '$'

/-- Read shorthands; ids only if `ids` says so. -/
def readShorthands (ids : Bool) : Text → List Shorthand × Text
  | [] => ([], [])
  | c :: t =>
    let name := t.takeWhile isNameChar
    if name.isEmpty || !(c == '.' || (ids && c == '#')) then ([], c :: t)
    else
      let rest := readShorthands ids (t.dropWhile isNameChar)
      ((if c = '.' then .className name else .id name) :: rest.1, rest.2)
termination_by t => t.length
decreasing_by exact Nat.lt_succ_of_le (Text.length_dropWhile_le isNameChar t)

/-- The inside of an attribute list, what follows it on its last line, and the lines below. -/
structure ListReading where
  inside : Text
  rest : Text
  lines : List Line

/-- Read an attribute list after its `(`. A list that is not closed on its line goes on over the
following lines. -/
def readList (t : Text) (lines : List Line) : ListReading :=
  match closing? 1 none false t with
  | some (inside, rest) => ⟨inside, rest, lines⟩
  | none =>
    match lines with
    | [] => ⟨t, [], []⟩
    | line :: lines => readList (t ++ '\n' :: line.text) lines

/-- Class shorthands join the first `class` attribute, or come first as one. -/
def addClasses (classes : List Text) (attributes : List Attribute) : List Attribute :=
  if classes.isEmpty then attributes
  else
    let names := Text.join [' '] classes
    let isClass := fun (a : Attribute) => a.name == "class".toList
    match attributes.dropWhile (!isClass ·) with
    | [] => ⟨"class".toList, some names, false⟩ :: attributes
    | a :: after =>
      attributes.takeWhile (!isClass ·) ++
        { a with value := some (Text.trimEnd (names ++ ' ' :: a.value.getD [])) } :: after

/-- What precedes the content of an element, and what follows on its line and below. -/
structure Head where
  name : Text
  attributes : List Attribute
  rest : Text
  lines : List Line

/-- The attribute list that a text may start with. -/
def readList? (t : Text) (lines : List Line) : ListReading :=
  match t with
  | '(' :: t => readList t lines
  | t => ⟨[], t, lines⟩

def readHead (content : Text) (lines : List Line) : Head :=
  let name := content.takeWhile isNameChar
  let before := readShorthands true (content.dropWhile isNameChar)
  let list := readList? before.2 lines
  let after := readShorthands false list.rest
  { name := if name.isEmpty then "div".toList else name
    attributes :=
      addClasses ((before.1 ++ after.1).filterMap Shorthand.className?)
        (before.1.filterMap Shorthand.attribute? ++ readAttributes list.inside)
    rest := after.2
    lines := list.lines }

/-- The number of characters in a list of lines, line ends included. -/
def size : List Line → Nat
  | [] => 0
  | line :: lines => line.text.length + 1 + size lines

theorem readShorthands_length_le (ids : Bool) (t : Text) :
    (readShorthands ids t).2.length ≤ t.length := by
  fun_induction readShorthands ids t with
  | case1 => simp
  | case2 => simp
  | case3 c t name _ rest ih =>
    have := Text.length_dropWhile_le isNameChar t
    exact Nat.le_succ_of_le (Nat.le_trans ih this)

theorem readList_size_le (t : Text) (lines : List Line) :
    (readList t lines).rest.length + size (readList t lines).lines ≤ t.length + size lines := by
  induction lines generalizing t with
  | nil =>
    unfold readList
    split
    · next h =>
      have := closing?_length_lt h
      dsimp only
      omega
    · simp
  | cons line lines ih =>
    unfold readList
    split
    · next h =>
      have := closing?_length_lt h
      dsimp only
      omega
    · have := ih (t ++ '\n' :: line.text)
      simp only [size, List.length_append, List.length_cons] at this ⊢
      omega

theorem readList?_size_le (t : Text) (lines : List Line) :
    (readList? t lines).rest.length + size (readList? t lines).lines ≤ t.length + size lines := by
  unfold readList?
  split
  · next t =>
    have := readList_size_le t lines
    simp only [List.length_cons]
    omega
  · exact Nat.le_refl _

theorem readList_lines_length_le (t : Text) (lines : List Line) :
    (readList t lines).lines.length ≤ lines.length := by
  induction lines generalizing t with
  | nil => unfold readList; split <;> simp
  | cons line lines ih =>
    unfold readList
    split
    · simp
    · exact Nat.le_succ_of_le (ih _)

/-- Reading a head takes characters away from its line and the lines below, and adds none. -/
theorem readHead_size_le (content : Text) (lines : List Line) :
    (readHead content lines).rest.length + size (readHead content lines).lines ≤
      content.length + size lines := by
  have hname := Text.length_dropWhile_le isNameChar content
  have hbefore := readShorthands_length_le true (content.dropWhile isNameChar)
  have hlist := readList?_size_le (readShorthands true (content.dropWhile isNameChar)).2 lines
  have hafter := readShorthands_length_le false
    (readList? (readShorthands true (content.dropWhile isNameChar)).2 lines).rest
  dsimp only [readHead]
  omega

theorem readHead_lines_length_le (content : Text) (lines : List Line) :
    (readHead content lines).lines.length ≤ lines.length := by
  dsimp only [readHead]
  unfold readList?
  split
  · exact readList_lines_length_le _ _
  · exact Nat.le_refl _

end TemplateProjection.Outline
