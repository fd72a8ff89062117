import TemplateProjection.Text.Blank

/-! The name and the attributes of an opening tag. -/
namespace TemplateProjection.Markup

/-- A value with the span it has without its quotes. -/
structure AttributeValue where
  text : Text
  span : Span
deriving DecidableEq, Repr

structure Attribute where
  name : Text
  nameSpan : Span
  value : Option AttributeValue
  /-- From the name to the end of the value, quotes included. -/
  span : Span
deriving DecidableEq, Repr

structure OpenTag where
  name : Text
  attributes : List Attribute
  selfClosing : Bool
  span : Span
deriving DecidableEq, Repr

/-- The text starts with a `/` that closes a tag: the `/` stands last or before `>`. -/
def closesTag : Text → Bool
  | ['/'] => true
  | '/' :: '>' :: _ => true
  | _ => false

/-- An attribute's name ends before a blank, `=`, `>` or a closing `/`. -/
def endsAttributeName : Text → Bool
  | [] => true
  | c :: t => isAsciiBlank c || c == '=' || c == '>' || closesTag (c :: t)

/-- Read a value: up to the next quote of the same kind, or up to a blank or `>`. -/
def readValue (e : Excerpt) : Excerpt × Excerpt :=
  let unquoted := fun c => !(isAsciiBlank c || c == '>')
  match e.text with
  | [] => (e, e)
  | q :: _ =>
    if q = '"' || q = '\'' then
      let inner := e.drop 1
      (inner.takeWhile (· != q), (inner.dropWhile (· != q)).drop 1)
    else (e.takeWhile unquoted, e.dropWhile unquoted)

/-- The attribute with the given name and value that ends at `stop`. A value without a name is no
attribute. -/
def attribute? (name : Excerpt) (value : Option Excerpt) (stop : Nat) : Option Attribute :=
  if name.text.isEmpty then none
  else some ⟨name.text, name.span, value.map fun v => ⟨v.text, v.span⟩, .between name.start stop⟩

/-- Read one attribute. -/
def readAttribute (e : Excerpt) : Option Attribute × Excerpt :=
  let (name, rest) := e.breakAt endsAttributeName
  let next := rest.dropWhile isAsciiBlank
  match next.text with
  | '=' :: _ =>
    let (value, rest) := readValue ((next.drop 1).dropWhile isAsciiBlank)
    (attribute? name (some value) rest.start, rest)
  | _ => (attribute? name none name.stop, rest)

theorem readValue_length_le (e : Excerpt) : (readValue e).2.text.length ≤ e.text.length := by
  simp only [readValue]
  split
  · exact Nat.le_refl _
  · next q _ _ =>
    split
    · have h := Text.length_dropWhile_le (· != q) (e.text.drop 1)
      simp only [List.length_drop] at h
      simp only [Excerpt.drop, Excerpt.dropWhile, List.length_drop]
      omega
    · exact Text.length_dropWhile_le _ _

theorem length_dropWhile_drop_lt {t rest : Text} {c : Char} {p q : Char → Bool}
    (h : t.dropWhile p = c :: rest) : (((t.dropWhile p).drop 1).dropWhile q).length < t.length := by
  have hp := Text.length_dropWhile_le p t
  have hq := Text.length_dropWhile_le q rest
  simp only [h, List.length_cons, List.drop_succ_cons, List.drop_zero] at hp ⊢
  omega

/-- Reading an attribute takes at least one character, unless the text starts with a blank, `>` or
a closing `/`. -/
theorem readAttribute_length_lt {e : Excerpt} {c : Char} {t : Text} (he : e.text = c :: t)
    (hblank : isAsciiBlank c = false) (hgt : c ≠ '>') (hclose : closesTag (c :: t) = false) :
    (readAttribute e).2.text.length < e.text.length := by
  have happ := congrArg List.length (Text.breakAt_append endsAttributeName e.text)
  simp only [List.length_append] at happ
  simp only [readAttribute, Excerpt.breakAt]
  split
  · next rest hnext =>
    refine Nat.lt_of_le_of_lt (readValue_length_le _) ?_
    simp only [Excerpt.dropWhile] at hnext
    have := length_dropWhile_drop_lt (q := isAsciiBlank) hnext
    simp only [Excerpt.dropWhile, Excerpt.drop]
    omega
  · next hnext =>
    show (Text.breakAt endsAttributeName e.text).2.length < _
    rcases Nat.eq_zero_or_pos (Text.breakAt endsAttributeName e.text).1.length with hzero | hpos
    · exfalso
      rw [he, List.length_eq_zero_iff] at hzero
      have hstop : endsAttributeName (c :: t) = true := by
        cases hs : endsAttributeName (c :: t)
        · simp [Text.breakAt, hs] at hzero
        · rfl
      have heq : c = '=' := by simpa [endsAttributeName, hblank, hgt, hclose] using hstop
      subst heq
      exact hnext t (by simp [Excerpt.dropWhile, he, Text.breakAt, hstop, hblank])
    · omega

theorem length_drop_one_lt {e : Excerpt} {c : Char} {t : Text} (he : e.text = c :: t) :
    (e.drop 1).text.length < e.text.length := by
  simp [Excerpt.drop, he]

/-- Read attributes to the end of the tag; the second part tells whether a `/` closes it. -/
def readAttributes (e : Excerpt) : List Attribute × Bool :=
  match he : e.text with
  | [] => ([], false)
  | c :: t =>
    have := length_drop_one_lt he
    if hblank : isAsciiBlank c then readAttributes (e.drop 1)
    else if hgt : c = '>' then ([], false)
    else if hclose : closesTag (c :: t) then ([], true)
    else if c = '/' then readAttributes (e.drop 1)
    else
      have := readAttribute_length_lt he (by simpa using hblank) hgt (by simpa using hclose)
      let (attributes, closed) := readAttributes (readAttribute e).2
      ((readAttribute e).1.toList ++ attributes, closed)
termination_by e.text.length

/-- The opening tag that stands in an excerpt. -/
def OpenTag.ofExcerpt (e : Excerpt) : OpenTag :=
  let isName := fun c => !(isAsciiBlank c || c == '>' || c == '/')
  let name := (e.drop 1).takeWhile isName
  let (attributes, closed) := readAttributes ((e.drop 1).dropWhile isName)
  ⟨name.text, attributes, closed, e.span⟩

end TemplateProjection.Markup
