import TemplateProjection.Markup.Entity
import TemplateProjection.Text.Blank

/-! Attribute lists: `(name="value", name=expression flag)`. -/
namespace TemplateProjection.Outline

structure Attribute where
  name : Text
  value : Option Text
  /-- Written with `!=`: the value goes into the markup as it stands. -/
  verbatim : Bool
deriving DecidableEq, Repr

def Attribute.render (a : Attribute) : Text :=
  match a.value with
  | none => a.name
  | some v => a.name ++ "=\"".toList ++ (if a.verbatim then v else Entity.escape v) ++ ['"']

/-- Divide a text at the next `quote` that no backslash escapes. Without one, all of the text is
quoted. -/
def readQuoted (quote : Char) : (escaped : Bool) → Text → Text × Text
  | _, [] => ([], [])
  | true, c :: t => (c :: (readQuoted quote false t).1, (readQuoted quote false t).2)
  | false, c :: t =>
    if c = quote then ([], t)
    else (c :: (readQuoted quote (c == '\\') t).1, (readQuoted quote (c == '\\') t).2)

/-- Divide a text before the next comma or blank outside brackets. -/
def readExpression : (depth : Nat) → Text → Text × Text
  | _, [] => ([], [])
  | depth, c :: t =>
    if depth = 0 && (c == ',' || isAsciiBlank c) then ([], c :: t)
    else
      let depth :=
        if c == '(' || c == '[' || c == '\x7b' then depth + 1
        else if c == ')' || c == ']' || c == '\x7d' then depth - 1
        else depth
      (c :: (readExpression depth t).1, (readExpression depth t).2)

/-- A name ends before a blank, a comma, `=` or `!=`. -/
def endsName : Text → Bool
  | '!' :: '=' :: _ => true
  | c :: _ => isAsciiBlank c || c == '=' || c == ','
  | [] => true

def readName (t : Text) : Text × Text :=
  match t with
  | c :: rest => if c = '"' || c = '\'' then readQuoted c false rest else t.breakAt endsName
  | [] => ([], [])

/-- Read what stands after `=`: a quoted text or an expression. -/
def readValue (t : Text) : Text × Text :=
  match t.dropWhile isAsciiBlank with
  | c :: rest =>
    if c = '"' || c = '\'' || c = '\x60' then readQuoted c false rest
    else readExpression 0 (c :: rest)
  | [] => ([], [])

/-- Read one attribute. A value without a name is no attribute. -/
def readAttribute (t : Text) : Option Attribute × Text :=
  let (name, rest) := readName t
  let named := fun value verbatim =>
    if name.isEmpty then none else some ⟨name, value, verbatim⟩
  match rest.dropWhile (· == ' ') with
  | '!' :: '=' :: after => (named (some (readValue after).1) true, (readValue after).2)
  | '=' :: after => (named (some (readValue after).1) false, (readValue after).2)
  | _ => (named none false, rest)

theorem readQuoted_length_le (quote : Char) (escaped : Bool) (t : Text) :
    (readQuoted quote escaped t).2.length ≤ t.length := by
  induction t generalizing escaped with
  | nil => cases escaped <;> simp [readQuoted]
  | cons c t ih =>
    cases escaped with
    | true =>
      simp only [readQuoted, List.length_cons]
      exact Nat.le_succ_of_le (ih false)
    | false =>
      simp only [readQuoted, List.length_cons]
      split
      · exact Nat.le_succ _
      · exact Nat.le_succ_of_le (ih _)

theorem readExpression_length_le (depth : Nat) (t : Text) :
    (readExpression depth t).2.length ≤ t.length := by
  induction t generalizing depth with
  | nil => simp [readExpression]
  | cons c t ih =>
    simp only [readExpression]
    split
    · exact Nat.le_refl _
    · exact Nat.le_succ_of_le (ih _)

theorem readValue_length_le (t : Text) : (readValue t).2.length ≤ t.length := by
  have hd := Text.length_dropWhile_le isAsciiBlank t
  simp only [readValue]
  split
  · next c rest h =>
    rw [h] at hd
    split
    · have := readQuoted_length_le c false rest
      simp only [List.length_cons] at hd
      omega
    · exact Nat.le_trans (readExpression_length_le 0 (c :: rest)) hd
  · simp

/-- A name is not empty unless `=` or `!=` stands in its place, or quotes with nothing in them. -/
theorem readName_length_lt {c : Char} {t : Text} (hstop : endsName (c :: t) = false) :
    (readName (c :: t)).2.length < (c :: t).length := by
  simp only [readName]
  split
  · have := readQuoted_length_le c false t
    simp only [List.length_cons]
    omega
  · have happ := congrArg List.length (Text.breakAt_append endsName t)
    simp only [List.length_append] at happ
    simp only [Text.breakAt, hstop, List.length_cons]
    show (Text.breakAt endsName t).2.length < _
    omega

theorem readAttribute_length_le (t : Text) :
    (readAttribute t).2.length ≤ (readName t).2.length := by
  have hd := Text.length_dropWhile_le (· == ' ') (readName t).2
  simp only [readAttribute]
  split
  · next after h =>
    have := readValue_length_le after
    simp only [h, List.length_cons] at hd
    show (readValue after).2.length ≤ _
    omega
  · next after h =>
    have := readValue_length_le after
    simp only [h, List.length_cons] at hd
    show (readValue after).2.length ≤ _
    omega
  · exact Nat.le_refl _

/-- Reading an attribute takes at least one character, unless a blank or a comma comes first. -/
theorem readAttribute_length_lt {c : Char} {t : Text} (hblank : isAsciiBlank c = false)
    (hcomma : c ≠ ',') : (readAttribute (c :: t)).2.length < (c :: t).length := by
  cases hstop : endsName (c :: t)
  · exact Nat.lt_of_le_of_lt (readAttribute_length_le _) (readName_length_lt hstop)
  · have hmark : c = '=' ∨ (c = '!' ∧ ∃ u, t = '=' :: u) := by
      simp only [endsName] at hstop
      split at hstop
      · next u heq =>
        cases heq
        exact Or.inr ⟨rfl, u, rfl⟩
      · next heq =>
        cases heq
        exact Or.inl (by simpa [hblank, hcomma] using hstop)
      · next heq => cases heq
    rcases hmark with rfl | ⟨rfl, u, rfl⟩
    · have := readValue_length_le t
      simp [readAttribute, readName, Text.breakAt, hstop]
      omega
    · have := readValue_length_le u
      simp [readAttribute, readName, Text.breakAt, hstop]
      omega

/-- Read attributes, with commas and blanks between them. -/
def readAttributes : Text → List Attribute
  | [] => []
  | c :: t =>
    if isAsciiBlank c then readAttributes t
    else if c = ',' then readAttributes t
    else
      (readAttribute (c :: t)).1.toList ++ readAttributes (readAttribute (c :: t)).2
termination_by t => t.length
decreasing_by
  · exact Nat.lt_succ_self _
  · exact Nat.lt_succ_self _
  · next hblank hcomma => exact readAttribute_length_lt (by simpa using hblank) hcomma

/-- Divide a text at the `)` that closes the list; `depth` parentheses are open, and perhaps a
`quote` in which a backslash escapes the next character. -/
def closing? : (depth : Nat) → (quote : Option Char) → (escaped : Bool) → Text →
    Option (Text × Text)
  | _, _, _, [] => none
  | depth, some q, true, c :: t =>
    (closing? depth (some q) false t).map fun (inside, after) => (c :: inside, after)
  | depth, some q, false, c :: t =>
    (closing? depth (if c = q then none else some q) (c != q && c == '\\') t).map
      fun (inside, after) => (c :: inside, after)
  | depth, none, _, c :: t =>
    if c = ')' && depth ≤ 1 then some ([], t)
    else
      let depth := if c = '(' then depth + 1 else if c = ')' then depth - 1 else depth
      let quote := if c = '"' || c = '\'' || c = '\x60' then some c else none
      (closing? depth quote false t).map fun (inside, after) => (c :: inside, after)

theorem closing?_length_lt {depth : Nat} {quote : Option Char} {escaped : Bool}
    {t inside after : Text} (h : closing? depth quote escaped t = some (inside, after)) :
    after.length < t.length := by
  induction t generalizing depth quote escaped inside with
  | nil => simp [closing?] at h
  | cons c t ih =>
    cases quote with
    | none =>
      simp only [closing?] at h
      split at h
      · cases h
        exact Nat.lt_succ_self _
      · obtain ⟨⟨a, b⟩, hab, he⟩ := Option.map_eq_some_iff.1 h
        cases he
        exact Nat.lt_succ_of_lt (ih hab)
    | some q =>
      cases escaped <;>
      · simp only [closing?] at h
        obtain ⟨⟨a, b⟩, hab, he⟩ := Option.map_eq_some_iff.1 h
        cases he
        exact Nat.lt_succ_of_lt (ih hab)

end TemplateProjection.Outline
