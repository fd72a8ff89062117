import TemplateProjection.Proofs.OutlineReading

/-!
Heads of elements as they are written. A head is read back as written, whatever follows it, if the
head cannot go on there.
-/
namespace TemplateProjection.Outline

variable {c : Char} {s t rest : Text} {lines : List Line}

theorem isMark_of_isNameChar (h : isNameChar c) : Markup.isMark c = false := by
  have hascii : c.toNat < 128 := by
    simp only [isNameChar, Bool.or_eq_true, beq_iff_eq] at h
    rcases h with ((halnum | rfl) | rfl) | rfl
    · exact toNat_lt_of_isAlphanum halnum
    all_goals decide
  have hmark := ascii_imp isNameChar (fun c => !Markup.isMark c) (by decide) hascii h
  simpa using hmark

theorem not_isBlank_of_isNameChar (h : isNameChar c) : ¬ isBlank c :=
  Bool.eq_false_iff.1 (Markup.isBlank_of_isMark (isMark_of_isNameChar h))

/-- What follows the `)` that closes a list does not matter to the list. -/
theorem closing?_append {depth : Nat} {quote : Option Char} {escaped : Bool} {inside after : Text}
    (h : closing? depth quote escaped t = some (inside, after)) (u : Text) :
    closing? depth quote escaped (t ++ u) = some (inside, after ++ u) := by
  induction t generalizing depth quote escaped inside with
  | nil => simp [closing?] at h
  | cons c t ih =>
    cases quote with
    | none =>
      simp only [closing?, List.cons_append] at h ⊢
      split at h
      · next hclose =>
        cases h
        rw [if_pos hclose]
      · next hclose =>
        obtain ⟨⟨inside', after'⟩, hclosing, heq⟩ := Option.map_eq_some_iff.1 h
        cases heq
        rw [if_neg hclose, ih hclosing, Option.map_some]
    | some q =>
      cases escaped <;>
      · simp only [closing?, List.cons_append] at h ⊢
        obtain ⟨⟨inside', after'⟩, hclosing, heq⟩ := Option.map_eq_some_iff.1 h
        cases heq
        rw [ih hclosing, Option.map_some]

namespace Shorthand

def name : Shorthand → Text
  | .className name => name
  | .id name => name

def text : Shorthand → Text
  | .className name => '.' :: name
  | .id name => '#' :: name

/-- The name of a shorthand can be read: it has characters, all of them name characters. -/
def isNamed (shorthand : Shorthand) : Bool :=
  !shorthand.name.isEmpty && shorthand.name.all isNameChar

theorem isNameChar_of_mem_name {shorthand : Shorthand} (h : shorthand.isNamed)
    (hc : c ∈ shorthand.name) : isNameChar c :=
  List.all_eq_true.1 ((Bool.and_eq_true _ _).mp h).2 c hc

theorem name_ne_nil {shorthand : Shorthand} (h : shorthand.isNamed) : shorthand.name ≠ [] := by
  have hsolid := ((Bool.and_eq_true _ _).mp h).1
  simpa using hsolid

theorem text_eq (shorthand : Shorthand) :
    ∃ mark, (mark = '.' ∨ mark = '#') ∧ shorthand.text = mark :: shorthand.name := by
  cases shorthand with
  | className name => exact ⟨'.', Or.inl rfl, rfl⟩
  | id name => exact ⟨'#', Or.inr rfl, rfl⟩

theorem not_isBlank_of_mem_text {shorthand : Shorthand} (h : shorthand.isNamed)
    (hc : c ∈ shorthand.text) : ¬ isBlank c := by
  obtain ⟨mark, hmark, htext⟩ := shorthand.text_eq
  rw [htext] at hc
  rcases List.mem_cons.1 hc with rfl | hname
  · rcases hmark with rfl | rfl <;> decide
  · exact not_isBlank_of_isNameChar (isNameChar_of_mem_name h hname)

end Shorthand

/-- Shorthands one after another. -/
def shorthandsText (shorthands : List Shorthand) : Text := shorthands.flatMap Shorthand.text

theorem shorthandsText_cons (shorthand : Shorthand) (shorthands : List Shorthand) :
    shorthandsText (shorthand :: shorthands) = shorthand.text ++ shorthandsText shorthands :=
  List.flatMap_cons

theorem not_isNameChar_shorthandsText (shorthands : List Shorthand)
    (hrest : ∀ c ∈ rest.head?, ¬ isNameChar c) :
    ∀ c ∈ (shorthandsText shorthands ++ rest).head?, ¬ isNameChar c := by
  cases shorthands with
  | nil => exact hrest
  | cons shorthand shorthands =>
    obtain ⟨mark, hmark, htext⟩ := shorthand.text_eq
    rw [shorthandsText_cons, htext]
    rintro c ⟨⟩
    rcases hmark with rfl | rfl <;> decide

theorem not_isBlank_of_mem_shorthandsText {shorthands : List Shorthand}
    (h : ∀ shorthand ∈ shorthands, shorthand.isNamed) :
    ∀ c ∈ shorthandsText shorthands, ¬ isBlank c := by
  intro c hc
  obtain ⟨shorthand, hmem, hc⟩ := List.mem_flatMap.1 hc
  exact Shorthand.not_isBlank_of_mem_text (h shorthand hmem) hc

/-- A shorthand is read as written; where ids are not read, it has to be a class. -/
theorem readShorthands_text {ids : Bool} {shorthand : Shorthand} (h : shorthand.isNamed)
    (hids : ids ∨ shorthand.className?.isSome) (hrest : ∀ c ∈ rest.head?, ¬ isNameChar c) :
    readShorthands ids (shorthand.text ++ rest) =
      (shorthand :: (readShorthands ids rest).1, (readShorthands ids rest).2) := by
  have hchars : ∀ c ∈ shorthand.name, isNameChar c :=
    fun c hc => Shorthand.isNameChar_of_mem_name h hc
  have hne : shorthand.name.isEmpty = false :=
    List.isEmpty_eq_false_iff.2 (Shorthand.name_ne_nil h)
  cases shorthand with
  | className name =>
    simp only [Shorthand.name] at hchars hne
    simp only [Shorthand.text, List.cons_append]
    rw [readShorthands, takeWhile_append_of_head hchars hrest,
      dropWhile_append_of_head hchars hrest, hne]
    rfl
  | id name =>
    have hid : ids = true := by simpa [Shorthand.className?] using hids
    simp only [Shorthand.name] at hchars hne
    simp only [Shorthand.text, List.cons_append]
    rw [readShorthands, takeWhile_append_of_head hchars hrest,
      dropWhile_append_of_head hchars hrest, hne, hid]
    rfl

theorem readShorthands_append (ids : Bool) {shorthands : List Shorthand}
    (h : ∀ shorthand ∈ shorthands, shorthand.isNamed)
    (hids : ∀ shorthand ∈ shorthands, ids ∨ shorthand.className?.isSome)
    (hrest : ∀ c ∈ rest.head?, ¬ isNameChar c) :
    readShorthands ids (shorthandsText shorthands ++ rest) =
      (shorthands ++ (readShorthands ids rest).1, (readShorthands ids rest).2) := by
  induction shorthands with
  | nil => rfl
  | cons shorthand shorthands ih =>
    obtain ⟨hnamed, hothers⟩ := List.forall_mem_cons.1 h
    obtain ⟨hid, hotherIds⟩ := List.forall_mem_cons.1 hids
    rw [shorthandsText_cons, List.append_assoc, readShorthands_text hnamed hid
      (not_isNameChar_shorthandsText shorthands hrest), ih hothers hotherIds, List.cons_append]

/-- An attribute list on one line, with the class shorthands after it. -/
structure ListForm where
  inside : Text
  classes : List Text
  closes : closing? 1 none false (inside ++ [')']) = some (inside, [])
  oneLine : '\n' ∉ inside
  named : ∀ name ∈ classes, (Shorthand.className name).isNamed

namespace ListForm

def text (l : ListForm) : Text :=
  '(' :: (l.inside ++ ')' :: shorthandsText (l.classes.map .className))

theorem isNamed (l : ListForm) :
    ∀ shorthand ∈ l.classes.map Shorthand.className, shorthand.isNamed := by
  intro shorthand hmem
  obtain ⟨name, hname, rfl⟩ := List.mem_map.1 hmem
  exact l.named name hname

theorem readList_append (l : ListForm) (rest : Text) (lines : List Line) :
    readList (l.inside ++ ')' :: shorthandsText (l.classes.map .className) ++ rest) lines =
      ⟨l.inside, shorthandsText (l.classes.map .className) ++ rest, lines⟩ := by
  have hclosing := closing?_append l.closes (shorthandsText (l.classes.map .className) ++ rest)
  rw [List.append_assoc, List.singleton_append, List.nil_append] at hclosing
  rw [List.append_assoc, List.cons_append]
  unfold readList
  rw [hclosing]

end ListForm

/-- A head as it is written: a name, shorthands and an attribute list on one line. It has at least
one of them. -/
structure HeadForm where
  name : Text
  shorthands : List Shorthand
  list : Option ListForm
  nameChars : name.all isNameChar
  named : ∀ shorthand ∈ shorthands, shorthand.isNamed
  solid : name ≠ [] ∨ shorthands ≠ [] ∨ list ≠ none

/-- The characters that a head may start with. No other kind of line starts with one of them, save
the lone `.`. -/
def isHeadStart (c : Char) : Bool := isNameChar c || c == '.' || c == '#' || c == '('

theorem isHeadStart_of_isNameChar (h : isNameChar c) : isHeadStart c := by
  simp only [isHeadStart, h, Bool.true_or]

theorem ne_of_isHeadStart {d : Char} (h : isHeadStart c) (hd : isHeadStart d = false) : c ≠ d := by
  rintro rfl
  rw [h] at hd
  cases hd

theorem not_isBlank_of_isHeadStart (h : isHeadStart c) : ¬ isBlank c := by
  simp only [isHeadStart, Bool.or_eq_true, beq_iff_eq] at h
  rcases h with ((hname | rfl) | rfl) | rfl
  · exact not_isBlank_of_isNameChar hname
  all_goals decide

/-- The head cannot go on in `rest`. -/
structure EndsHead (rest : Text) : Prop where
  name : ∀ c ∈ rest.head?, ¬ isNameChar c
  list : ∀ c ∈ rest.head?, c ≠ '('
  shorthands : ∀ ids, readShorthands ids rest = ([], rest)

theorem EndsHead.nil : EndsHead [] where
  name := by rintro c ⟨⟩
  list := by rintro c ⟨⟩
  shorthands ids := by rw [readShorthands]

theorem EndsHead.space (t : Text) : EndsHead (' ' :: t) where
  name := by rintro c ⟨⟩; decide
  list := by rintro c ⟨⟩; decide
  shorthands ids := readShorthands_of_ne ids (by decide) (by decide) t

theorem EndsHead.colon (t : Text) : EndsHead (':' :: t) where
  name := by rintro c ⟨⟩; decide
  list := by rintro c ⟨⟩; decide
  shorthands ids := readShorthands_of_ne ids (by decide) (by decide) t

theorem EndsHead.dot : EndsHead ['.'] where
  name := by rintro c ⟨⟩; decide
  list := by rintro c ⟨⟩; decide
  shorthands ids := by rw [readShorthands]; rfl

namespace HeadForm

variable (h : HeadForm)

def listText : Text := h.list.elim [] ListForm.text

def text : Text := h.name ++ (shorthandsText h.shorthands ++ h.listText)

/-- The tag that the head is for. -/
def tag : Tag where
  name := if h.name.isEmpty then "div".toList else h.name
  attributes :=
    addClasses (h.shorthands.filterMap Shorthand.className? ++ h.list.elim [] ListForm.classes)
      (h.shorthands.filterMap Shorthand.attribute? ++
        readAttributes (h.list.elim [] ListForm.inside))
  selfClosing := false

theorem not_isNameChar_listText (hrest : EndsHead rest) :
    ∀ c ∈ (h.listText ++ rest).head?, ¬ isNameChar c := by
  unfold listText
  cases h.list with
  | none => exact hrest.name
  | some l =>
    rintro c ⟨⟩
    decide

theorem readShorthands_listText (hrest : EndsHead rest) :
    readShorthands true (h.listText ++ rest) = ([], h.listText ++ rest) := by
  unfold listText
  cases h.list with
  | none => exact hrest.shorthands true
  | some l => exact readShorthands_of_ne true (by decide) (by decide) _

/-- The list is read, and then the class shorthands after it. -/
theorem readList?_listText (hrest : EndsHead rest) (lines : List Line) :
    ∃ after, readList? (h.listText ++ rest) lines =
        ⟨h.list.elim [] ListForm.inside, after, lines⟩ ∧
      readShorthands false after = ((h.list.elim [] ListForm.classes).map .className, rest) := by
  unfold listText
  cases h.list with
  | none =>
    refine ⟨rest, ?_, hrest.shorthands false⟩
    unfold readList?
    split
    · next u heq =>
      have hhead : rest = '(' :: u := heq
      exact absurd rfl (hrest.list '(' (by rw [hhead]; rfl))
    · rfl
  | some l =>
    refine ⟨_, l.readList_append rest lines, ?_⟩
    have hclasses : ∀ shorthand ∈ l.classes.map Shorthand.className,
        false ∨ shorthand.className?.isSome := by
      intro shorthand hmem
      obtain ⟨name, -, rfl⟩ := List.mem_map.1 hmem
      exact Or.inr rfl
    rw [readShorthands_append false l.isNamed hclasses hrest.name, hrest.shorthands,
      List.append_nil]
    rfl

theorem readHead_text (hrest : EndsHead rest) (lines : List Line) :
    readHead (h.text ++ rest) lines = ⟨h.tag.name, h.tag.attributes, rest, lines⟩ := by
  have hname : ∀ c ∈ h.name, isNameChar c := List.all_eq_true.1 h.nameChars
  have hlist := h.not_isNameChar_listText hrest
  have hstop := not_isNameChar_shorthandsText h.shorthands hlist
  obtain ⟨after, hread, hafter⟩ := h.readList?_listText hrest lines
  have hshorthands := readShorthands_append true h.named (fun _ _ => Or.inl rfl) hlist
  rw [h.readShorthands_listText hrest, List.append_nil] at hshorthands
  have hclasses : ((h.list.elim [] ListForm.classes).map Shorthand.className).filterMap
      Shorthand.className? = h.list.elim [] ListForm.classes := by
    rw [List.filterMap_map]
    exact List.filterMap_some
  rw [text, List.append_assoc, List.append_assoc]
  simp only [readHead, takeWhile_append_of_head hname hstop,
    dropWhile_append_of_head hname hstop, hshorthands, hread, hafter,
    List.filterMap_append, hclasses, tag]

theorem exists_cons : ∃ c t, h.text = c :: t ∧ isHeadStart c ∧ (c = '.' → t ≠ []) := by
  cases hname : h.name with
  | cons c t =>
    have hc : isNameChar c := by
      apply List.all_eq_true.1 h.nameChars
      rw [hname]
      exact List.mem_cons_self
    refine ⟨c, _, by rw [text, hname, List.cons_append], isHeadStart_of_isNameChar hc, ?_⟩
    rintro rfl
    exact absurd hc (by decide)
  | nil =>
    cases hshorthands : h.shorthands with
    | cons shorthand shorthands =>
      obtain ⟨mark, hmark, htext⟩ := shorthand.text_eq
      have hnamed : shorthand.isNamed := by
        apply h.named
        rw [hshorthands]
        exact List.mem_cons_self
      refine ⟨mark, shorthand.name ++ (shorthandsText shorthands ++ h.listText), ?_, ?_, ?_⟩
      · rw [text, hname, hshorthands, shorthandsText_cons, htext, List.nil_append,
          List.append_assoc, List.cons_append]
      · rcases hmark with rfl | rfl <;> rfl
      · exact fun _ => List.append_ne_nil_of_left_ne_nil (Shorthand.name_ne_nil hnamed) _
    | nil =>
      cases hlist : h.list with
      | some l =>
        refine ⟨'(', _, by rw [text, hname, hshorthands, listText, hlist]; rfl, rfl, ?_⟩
        exact fun hdot => absurd hdot (by decide)
      | none =>
        rcases h.solid with hsolid | hsolid | hsolid
        · exact absurd hname hsolid
        · exact absurd hshorthands hsolid
        · exact absurd hlist hsolid

theorem not_isBlank_of_mem : ∀ c ∈ h.name ++ shorthandsText h.shorthands, ¬ isBlank c := by
  intro c hc
  rcases List.mem_append.1 hc with hname | hshorthands
  · exact not_isBlank_of_isNameChar (List.all_eq_true.1 h.nameChars c hname)
  · exact not_isBlank_of_mem_shorthandsText h.named c hshorthands

theorem not_isBlank_last : ∀ c ∈ h.text.getLast?, ¬ isBlank c := by
  intro c hc
  rw [text, ← List.append_assoc] at hc
  unfold listText at hc
  cases hlist : h.list with
  | none =>
    rw [hlist, Option.elim_none, List.append_nil] at hc
    exact h.not_isBlank_of_mem c (List.mem_of_getLast? hc)
  | some l =>
    rw [hlist, Option.elim_some, ListForm.text, ← List.cons_append, ← List.append_assoc,
      List.getLast?_append_of_ne_nil _ (List.cons_ne_nil _ _)] at hc
    rcases List.mem_cons.1 (List.mem_of_getLast? hc) with rfl | hclasses
    · decide
    · exact not_isBlank_of_mem_shorthandsText l.isNamed c hclasses

/-- A head stands on one line. -/
theorem not_mem_text : '\n' ∉ h.text := by
  rw [text, ← List.append_assoc, List.mem_append, not_or]
  refine ⟨fun hmem => h.not_isBlank_of_mem _ hmem (by decide), ?_⟩
  unfold listText
  cases h.list with
  | none => exact List.not_mem_nil
  | some l =>
    have hclasses : '\n' ∉ shorthandsText (l.classes.map .className) :=
      fun hmem => not_isBlank_of_mem_shorthandsText l.isNamed _ hmem (by decide)
    simp [ListForm.text, l.oneLine, hclasses]

end HeadForm

end TemplateProjection.Outline
