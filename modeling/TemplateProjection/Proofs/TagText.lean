import TemplateProjection.Proofs.Ascii
import TemplateProjection.Proofs.Shape

/-! Opening tags as they are written: the lexer and the tag reader find the same tag again. -/
namespace TemplateProjection.Markup

variable {c d : Char} {s t rest name : Text}

/-- A letter, then letters, digits and hyphens. -/
def isElementName : Text → Bool
  | [] => false
  | c :: t => c.isAlpha && t.all fun c => c.isAlphanum || c == '-'

def isAttributeNameChar (c : Char) : Bool := c.isAlphanum || "-_:@.#".toList.contains c

def isAttributeName (name : Text) : Bool := !name.isEmpty && name.all isAttributeNameChar

/-- The name can be told from what surrounds it, and a quote is left for the value. -/
structure Attribute.Printable (a : Attribute) : Prop where
  name : isAttributeName a.name
  value : ∀ v ∈ a.value, '"' ∉ v.text ∨ '\'' ∉ v.text

structure OpenTag.Printable (tag : OpenTag) : Prop where
  name : isElementName tag.name
  attributes : ∀ a ∈ tag.attributes, a.Printable

/-- The characters that end or surround names somewhere. -/
def isMark (c : Char) : Bool := isBlank c || "<>/=\"'\x60,()!\\&".toList.contains c

theorem ne_of_isMark (hc : isMark c = false) (hd : isMark d) : c ≠ d := by
  rintro rfl
  rw [hd] at hc
  cases hc

theorem toNat_lt_of_isAttributeNameChar (h : isAttributeNameChar c) : c.toNat < 128 := by
  rcases (Bool.or_eq_true _ _).mp h with h | h
  · exact toNat_lt_of_isAlphanum h
  · have hmarks : "-_:@.#".toList.all (·.toNat < 128) := by decide
    exact of_decide_eq_true (List.all_eq_true.1 hmarks c (List.contains_iff_mem.1 h))

theorem isMark_of_isAttributeNameChar (h : isAttributeNameChar c) : isMark c = false := by
  have hmark := ascii_imp isAttributeNameChar (fun c => !isMark c) (by decide)
    (toNat_lt_of_isAttributeNameChar h) h
  simpa using hmark

theorem isAsciiBlank_of_isMark (h : isMark c = false) : isAsciiBlank c = false := by
  cases hblank : isAsciiBlank c with
  | false => rfl
  | true => simp [isMark, isBlank_of_isAsciiBlank hblank] at h

theorem isBlank_of_isMark (h : isMark c = false) : isBlank c = false :=
  ((Bool.or_eq_false_iff).1 h).1

theorem isAlphanum_of_mem_elementName (h : isElementName name) (hc : c ∈ name) :
    c.isAlphanum || c == '-' := by
  cases name with
  | nil => cases h
  | cons d t =>
    obtain ⟨hd, ht⟩ := (Bool.and_eq_true _ _).mp h
    rcases List.mem_cons.1 hc with rfl | hc
    · have hc : c.isAlphanum := (Bool.or_eq_true _ _).mpr (Or.inl hd)
      exact (Bool.or_eq_true _ _).mpr (Or.inl hc)
    · exact List.all_eq_true.1 ht c hc

/-- The characters of an element's name may all stand in an attribute's name. -/
theorem isAttributeNameChar_of_mem (h : isElementName name) (hc : c ∈ name) :
    isAttributeNameChar c := by
  rcases (Bool.or_eq_true _ _).mp (isAlphanum_of_mem_elementName h hc) with halnum | hhyphen
  · exact (Bool.or_eq_true _ _).mpr (Or.inl halnum)
  · rw [beq_iff_eq.1 hhyphen]
    decide

theorem exists_of_isElementName (h : isElementName name) : ∃ c t, name = c :: t ∧ c.isAlpha := by
  cases name with
  | nil => cases h
  | cons c t => exact ⟨c, t, rfl, ((Bool.and_eq_true _ _).mp h).1⟩

theorem isMark_of_mem_elementName (h : isElementName name) : ∀ c ∈ name, isMark c = false :=
  fun _ hc => isMark_of_isAttributeNameChar (isAttributeNameChar_of_mem h hc)

theorem isMark_of_mem_attributeName (h : isAttributeName name) : ∀ c ∈ name, isMark c = false :=
  fun c hc => isMark_of_isAttributeNameChar
    (List.all_eq_true.1 ((Bool.and_eq_true _ _).mp h).2 c hc)

theorem not_mem_elementName (h : isElementName name) (hd : isMark d) : d ∉ name :=
  fun hmem => ne_of_isMark (isMark_of_mem_elementName h d hmem) hd rfl

theorem not_mem_attributeName (h : isAttributeName name) (hd : isMark d) : d ∉ name :=
  fun hmem => ne_of_isMark (isMark_of_mem_attributeName h d hmem) hd rfl

theorem ne_nil_of_isElementName (h : isElementName name) : name ≠ [] := by
  rintro rfl
  cases h

theorem ne_nil_of_isAttributeName (h : isAttributeName name) : name ≠ [] := by
  rintro rfl
  cases h

/-- No tag ends in `s`, and no quote stays open after it. -/
def Inside (s : Text) : Prop :=
  ∀ t, throughTagEnd none (s ++ t) = (s ++ (throughTagEnd none t).1, (throughTagEnd none t).2)

theorem Inside.nil : Inside [] := fun _ => rfl

theorem Inside.append (hs : Inside s) (ht : Inside t) : Inside (s ++ t) := by
  intro u
  rw [List.append_assoc, hs, ht, List.append_assoc]

theorem Inside.of_isMark (h : ∀ c ∈ s, c ≠ '>' ∧ c ≠ '"' ∧ c ≠ '\'') : Inside s := by
  induction s with
  | nil => exact .nil
  | cons c s ih =>
    intro t
    obtain ⟨⟨hgt, hdouble, hsingle⟩, hs⟩ := List.forall_mem_cons.1 h
    have hrest := ih hs t
    simp only [List.cons_append, throughTagEnd, if_neg hgt, hdouble, hsingle, decide_false,
      Bool.or_self, Bool.false_eq_true, if_false, hrest]

theorem throughTagEnd_quoted {q : Char} {v : Text} (h : q ∉ v) (t : Text) :
    throughTagEnd (some q) (v ++ q :: t) =
      (v ++ q :: (throughTagEnd none t).1, (throughTagEnd none t).2) := by
  induction v with
  | nil => simp [throughTagEnd]
  | cons c v ih =>
    have hc : c ≠ q := fun hc => h (hc ▸ List.mem_cons_self)
    have hv : q ∉ v := fun hv => h (List.mem_cons_of_mem c hv)
    simp only [List.cons_append, throughTagEnd, if_neg hc, ih hv]

theorem Inside.quoted {q : Char} {v : Text} (hq : q = '"' ∨ q = '\'') (h : q ∉ v) :
    Inside (q :: (v ++ [q])) := by
  intro t
  have hgt : q ≠ '>' := by rcases hq with rfl | rfl <;> decide
  have hquote : (decide (q = '"') || decide (q = '\'')) = true := by simpa using hq
  have hrest := throughTagEnd_quoted h t
  simp only [List.cons_append, List.append_assoc, List.nil_append, throughTagEnd, if_neg hgt,
    hquote, if_true, hrest]

/-- The quotes that are put around a value do not stand in it. -/
theorem exists_quote {v : Text} (h : '"' ∉ v ∨ '\'' ∉ v) :
    ∃ q, (if v.contains '"' then '\'' else '"') = q ∧ (q = '"' ∨ q = '\'') ∧ q ∉ v := by
  by_cases hdouble : '"' ∈ v
  · refine ⟨'\'', by simp [hdouble], Or.inr rfl, ?_⟩
    rcases h with hnot | hnot
    · exact absurd hdouble hnot
    · exact hnot
  · exact ⟨'"', by simp [hdouble], Or.inl rfl, hdouble⟩

namespace Attribute

variable {a : Attribute} {v : AttributeValue}

/-- A written value stands between quotes that it does not hold. -/
theorem Printable.render_eq (h : a.Printable) (hv : a.value = some v) :
    ∃ q, (q = '"' ∨ q = '\'') ∧ q ∉ v.text ∧ a.render = a.name ++ '=' :: q :: (v.text ++ [q]) := by
  obtain ⟨q, hq, hquote, hnot⟩ := exists_quote (h.value v hv)
  refine ⟨q, hquote, hnot, ?_⟩
  simp only [Attribute.render, hv, hq, List.append_assoc, List.cons_append, List.nil_append]

theorem Printable.inside (h : a.Printable) : Inside (' ' :: a.render) := by
  have hspace : Inside [' '] := .of_isMark (List.forall_mem_singleton.2 (by decide))
  have hname : Inside a.name := by
    refine .of_isMark fun c hc => ?_
    have hmark := isMark_of_mem_attributeName h.name c hc
    exact ⟨ne_of_isMark hmark (by decide), ne_of_isMark hmark (by decide),
      ne_of_isMark hmark (by decide)⟩
  cases hv : a.value with
  | none =>
    have hrender : a.render = a.name := by simp [Attribute.render, hv]
    rw [hrender]
    exact hspace.append hname
  | some v =>
    obtain ⟨q, hq, hnot, hrender⟩ := h.render_eq hv
    have hequals : Inside ['='] := .of_isMark (List.forall_mem_singleton.2 (by decide))
    rw [hrender]
    exact hspace.append (hname.append (hequals.append (.quoted hq hnot)))

end Attribute

theorem closesTag_of_ne (h : c ≠ '/') (t : Text) : closesTag (c :: t) = false := by
  unfold closesTag
  split
  · next heq => exact absurd (List.cons.inj heq).1 h
  · next heq => exact absurd (List.cons.inj heq).1 h
  · rfl

theorem endsAttributeName_of_isMark (h : isMark c = false) (t : Text) :
    endsAttributeName (c :: t) = false := by
  have hequals : c ≠ '=' := ne_of_isMark h (by decide)
  have hgt : c ≠ '>' := ne_of_isMark h (by decide)
  have hslash : c ≠ '/' := ne_of_isMark h (by decide)
  simp [endsAttributeName, isAsciiBlank_of_isMark h, hequals, hgt, closesTag_of_ne hslash]

/-- What may follow an attribute: a blank or the end of the tag, and no value. -/
def FollowsAttribute (t : Text) : Prop :=
  endsAttributeName t ∧ ∀ c ∈ (t.dropWhile isAsciiBlank).head?, c ≠ '='

theorem readValue_quoted {e : Excerpt} {q : Char} {v : Text} (hq : q = '"' ∨ q = '\'') (h : q ∉ v)
    (he : e.text = q :: (v ++ q :: rest)) :
    readValue e = (⟨e.start + 1, v⟩, ⟨e.start + v.byteLength + 2, rest⟩) := by
  have hquote : (decide (q = '"') || decide (q = '\'')) = true := by simpa using hq
  have hsize : Text.byteLength [q] = 1 := by rcases hq with rfl | rfl <;> rfl
  have hv : ∀ c ∈ v, (c != q) = true := by
    intro c hc
    simpa using fun hcq : c = q => h (hcq ▸ hc)
  have hstop : ∀ c ∈ (q :: rest).head?, ¬ (c != q) = true := by simp
  have hstart : e.start + 1 + v.byteLength + 1 = e.start + v.byteLength + 2 := by omega
  unfold readValue
  simp only [he, hquote, if_true, Excerpt.takeWhile, Excerpt.dropWhile, Excerpt.drop,
    List.take_succ_cons, List.take_zero, List.drop_succ_cons, List.drop_zero, hsize,
    takeWhile_append_of_head hv hstop, dropWhile_append_of_head hv hstop, hstart]

/-- A value is read between its quotes. -/
theorem readAttribute_quoted {e : Excerpt} {q : Char} {v : Text} (hname : isAttributeName name)
    (hq : q = '"' ∨ q = '\'') (h : q ∉ v) (he : e.text = name ++ '=' :: q :: (v ++ q :: rest)) :
    ∃ span, readAttribute e = (some ⟨name, ⟨e.start, name.byteLength⟩,
      some ⟨v, ⟨e.start + name.byteLength + 2, v.byteLength⟩⟩, span⟩,
      ⟨e.start + name.byteLength + v.byteLength + 3, rest⟩) := by
  have hbreak : e.text.breakAt endsAttributeName = (name, '=' :: q :: (v ++ q :: rest)) := by
    rw [he]
    exact Text.breakAt_append_of_stop
      (fun c hc => endsAttributeName_of_isMark (isMark_of_mem_attributeName hname c hc)) (.inr rfl)
  have hempty : name.isEmpty = false := by simpa using ne_nil_of_isAttributeName hname
  have hequals : ¬ isAsciiBlank '=' := by decide
  have hquote : ¬ isAsciiBlank q := by rcases hq with rfl | rfl <;> decide
  have hsize : Text.byteLength ['='] = 1 := rfl
  have hvalue : readValue ⟨e.start + name.byteLength + 1, q :: (v ++ q :: rest)⟩ = _ :=
    readValue_quoted hq h rfl
  have hstart : e.start + name.byteLength + 1 + 1 = e.start + name.byteLength + 2 := rfl
  have hstop : e.start + name.byteLength + 1 + v.byteLength + 2 =
      e.start + name.byteLength + v.byteLength + 3 := by omega
  unfold readAttribute
  simp only [Excerpt.breakAt, Excerpt.dropWhile, Excerpt.drop, hbreak,
    List.dropWhile_cons_of_neg hequals, List.takeWhile_cons_of_neg hequals, List.take_succ_cons,
    List.take_zero, List.drop_succ_cons, List.drop_zero, List.dropWhile_cons_of_neg hquote,
    List.takeWhile_cons_of_neg hquote, Text.byteLength_nil, hsize, Nat.add_zero, hvalue, hstart,
    hstop, attribute?, hempty]
  exact ⟨_, rfl⟩

/-- A written attribute is read again. -/
theorem readAttribute_render {a : Attribute} {e : Excerpt} (h : a.Printable)
    (he : e.text = a.render ++ rest) (hrest : FollowsAttribute rest) :
    ∃ a', readAttribute e = (some a', ⟨e.start + a.render.byteLength, rest⟩) ∧
      a'.bare = a.bare := by
  have hne := ne_nil_of_isAttributeName h.name
  cases hv : a.value with
  | none =>
    have hname : ∀ c ∈ a.name, ∀ t, endsAttributeName (c :: t) = false :=
      fun c hc => endsAttributeName_of_isMark (isMark_of_mem_attributeName h.name c hc)
    have hrender : a.render = a.name := by simp [Attribute.render, hv]
    have hbreak := Text.breakAt_append_of_stop hname (Or.inr hrest.1)
    rw [hrender] at he ⊢
    have hnext : ∀ u, rest.dropWhile isAsciiBlank ≠ '=' :: u := by
      intro u hu
      exact hrest.2 '=' (by rw [hu]; rfl) rfl
    have hempty : a.name.isEmpty = false := by simpa using hne
    unfold readAttribute
    simp only [Excerpt.breakAt, Excerpt.dropWhile, he, hbreak]
    simp only [attribute?, hempty]
    exact ⟨_, rfl, by simp [Attribute.bare, hv]⟩
  | some v =>
    obtain ⟨q, hq, hnot, hrender⟩ := h.render_eq hv
    have hstop : e.start + a.render.byteLength =
        e.start + a.name.byteLength + v.text.byteLength + 3 := by
      have hmarks : Char.utf8Size '=' = 1 ∧ q.utf8Size = 1 := by
        rcases hq with rfl | rfl <;> decide
      rw [hrender]
      simp only [Text.byteLength_append, Text.byteLength_cons, Text.byteLength_nil, hmarks]
      omega
    rw [hrender] at he
    simp only [List.append_assoc, List.cons_append, List.nil_append] at he
    obtain ⟨span, hread⟩ := readAttribute_quoted h.name hq hnot he
    rw [hstop, hread]
    exact ⟨_, rfl, by simp [Attribute.bare, hv]⟩

theorem readAttributes_blank {e : Excerpt} (he : e.text = c :: t) (h : isAsciiBlank c) :
    readAttributes e = readAttributes (e.drop 1) := by
  rw [readAttributes]
  split
  · next hnil => simp [he] at hnil
  · next c' t' hcons =>
    obtain ⟨rfl, rfl⟩ := List.cons.inj (he.symm.trans hcons)
    rw [dif_pos h]

theorem readAttributes_name {e : Excerpt} (he : e.text = c :: t) (h : isMark c = false) :
    readAttributes e = ((readAttribute e).1.toList ++ (readAttributes (readAttribute e).2).1,
      (readAttributes (readAttribute e).2).2) := by
  have hblank : ¬ isAsciiBlank c := by simp [isAsciiBlank_of_isMark h]
  have hgt : c ≠ '>' := ne_of_isMark h (by decide)
  have hslash : c ≠ '/' := ne_of_isMark h (by decide)
  have hclose : ¬ closesTag (c :: t) := by simp [closesTag_of_ne hslash]
  conv => lhs; rw [readAttributes]
  split
  · next hnil => simp [he] at hnil
  · next c' t' hcons =>
    obtain ⟨rfl, rfl⟩ := List.cons.inj (he.symm.trans hcons)
    rw [dif_neg hblank, dif_neg hgt, dif_neg hclose, if_neg hslash]

/-- The end of a tag. -/
def closer (closed : Bool) : Text := if closed then "/>".toList else ['>']

theorem readAttributes_closer {e : Excerpt} {closed : Bool} (he : e.text = closer closed) :
    readAttributes e = ([], closed) := by
  rw [readAttributes]
  cases closed with
  | false =>
    split
    · next hnil => simp [he, closer] at hnil
    · next c t hcons =>
      obtain ⟨rfl, rfl⟩ := List.cons.inj (he.symm.trans hcons)
      rfl
  | true =>
    split
    · next hnil => simp [he, closer] at hnil
    · next c t hcons =>
      obtain ⟨rfl, rfl⟩ := List.cons.inj (he.symm.trans hcons)
      rfl

theorem followsAttribute_closer (closed : Bool) : FollowsAttribute (closer closed) := by
  cases closed with
  | false => exact ⟨rfl, by rintro c ⟨⟩; decide⟩
  | true => exact ⟨rfl, by rintro c ⟨⟩; decide⟩

theorem Attribute.Printable.render_cons {a : Attribute} (h : a.Printable) :
    ∃ c t, a.render = c :: t ∧ isMark c = false := by
  obtain ⟨c, t, hname⟩ := List.exists_cons_of_ne_nil (ne_nil_of_isAttributeName h.name)
  have hmark := isMark_of_mem_attributeName h.name c (by simp [hname])
  cases hv : a.value with
  | none => exact ⟨c, t, by simp [Attribute.render, hv, hname], hmark⟩
  | some v => exact ⟨c, _, by simp only [Attribute.render, hv, hname, List.cons_append]; rfl, hmark⟩

/-- Attributes as they are written behind one another. -/
def renderAttributes (attributes : List Attribute) : Text :=
  attributes.flatMap fun a => ' ' :: a.render

theorem renderAttributes_cons (a : Attribute) (attributes : List Attribute) :
    renderAttributes (a :: attributes) = ' ' :: (a.render ++ renderAttributes attributes) := rfl

theorem followsAttribute_append {attributes : List Attribute} (h : ∀ a ∈ attributes, a.Printable)
    (hrest : FollowsAttribute rest) : FollowsAttribute (renderAttributes attributes ++ rest) := by
  cases attributes with
  | nil => exact hrest
  | cons a attributes =>
    obtain ⟨c, t, hrender, hmark⟩ := (h a List.mem_cons_self).render_cons
    have hblank : ¬ isAsciiBlank c := by simp [isAsciiBlank_of_isMark hmark]
    refine ⟨rfl, ?_⟩
    simp only [renderAttributes, List.flatMap_cons, hrender, List.cons_append]
    rw [List.dropWhile_cons_of_pos rfl, List.dropWhile_cons_of_neg hblank]
    rintro d ⟨⟩
    exact ne_of_isMark hmark (by decide)

/-- An attribute behind a blank is the first of the list. -/
theorem readAttributes_first {a a' : Attribute} {e behind : Excerpt} (h : a.Printable)
    (he : e.text = ' ' :: (a.render ++ rest))
    (hread : readAttribute ⟨e.start + 1, a.render ++ rest⟩ = (some a', behind)) :
    readAttributes e = (readAttributes behind).map (a' :: ·) id := by
  obtain ⟨c, t, hrender, hmark⟩ := h.render_cons
  have hdrop : e.drop 1 = ⟨e.start + 1, a.render ++ rest⟩ := by
    rw [Excerpt.drop, he]
    rfl
  have htext : (e.drop 1).text = c :: (t ++ rest) := by
    rw [hdrop, hrender]
    rfl
  rw [readAttributes_blank he rfl, readAttributes_name htext hmark, hdrop, hread]
  rfl

/-- Written attributes are read again, and reading goes on behind them. -/
theorem readAttributes_append {attributes : List Attribute} {e : Excerpt}
    (h : ∀ a ∈ attributes, a.Printable) (hrest : FollowsAttribute rest)
    (he : e.text = renderAttributes attributes ++ rest) :
    ∃ found, found.map Attribute.bare = attributes.map Attribute.bare ∧
      readAttributes e =
        (readAttributes ⟨e.start + (renderAttributes attributes).byteLength, rest⟩).map
          (found ++ ·) id := by
  induction attributes generalizing e with
  | nil =>
    obtain ⟨start, text⟩ := e
    obtain rfl : text = rest := he
    exact ⟨[], rfl, rfl⟩
  | cons a attributes ih =>
    obtain ⟨ha, hattributes⟩ := List.forall_mem_cons.1 h
    rw [renderAttributes_cons, List.cons_append, List.append_assoc] at he
    obtain ⟨a', hread, hbare⟩ :=
      @readAttribute_render (renderAttributes attributes ++ rest) a ⟨e.start + 1, _⟩ ha rfl
        (followsAttribute_append hattributes hrest)
    obtain ⟨found, hmap, hfound⟩ :=
      @ih ⟨e.start + 1 + a.render.byteLength, renderAttributes attributes ++ rest⟩ hattributes rfl
    have hlength : e.start + (renderAttributes (a :: attributes)).byteLength =
        e.start + 1 + a.render.byteLength + (renderAttributes attributes).byteLength := by
      have hspace : Char.utf8Size ' ' = 1 := by decide
      simp only [renderAttributes_cons, Text.byteLength_append, Text.byteLength_cons, hspace]
      omega
    refine ⟨a' :: found, by simp [hbare, hmap], ?_⟩
    rw [readAttributes_first ha he hread, hfound, hlength]
    rfl

/-- Written attributes are read again, up to the end of their tag. -/
theorem readAttributes_render {attributes : List Attribute} {e : Excerpt} {closed : Bool}
    (h : ∀ a ∈ attributes, a.Printable)
    (he : e.text = renderAttributes attributes ++ closer closed) :
    ∃ found, readAttributes e = (found, closed) ∧
      found.map Attribute.bare = attributes.map Attribute.bare := by
  obtain ⟨found, hmap, hfound⟩ := readAttributes_append h (followsAttribute_closer closed) he
  have hcloser : ∀ start, readAttributes ⟨start, closer closed⟩ = ([], closed) :=
    fun start => readAttributes_closer rfl
  rw [hcloser] at hfound
  exact ⟨found, hfound.trans (congrArg (·, closed) (List.append_nil found)), hmap⟩

theorem Inside.attributes {attributes : List Attribute} (h : ∀ a ∈ attributes, a.Printable) :
    Inside (attributes.flatMap fun a => ' ' :: a.render) := by
  induction attributes with
  | nil => exact .nil
  | cons a attributes ih =>
    obtain ⟨ha, hattributes⟩ := List.forall_mem_cons.1 h
    exact ha.inside.append (ih hattributes)

/-- A letter after `<` starts an opening tag. -/
theorem Lexeme.ofMarkup_of_isAlpha (h : c.isAlpha) (t : Text) :
    Lexeme.ofMarkup (c :: t) = Lexeme.openTag (c :: t) := by
  have hbang : c ≠ '!' := by
    rintro rfl
    exact absurd h (by decide)
  have hafter : Text.after? "!--".toList (c :: t) = none := by simp [Text.after?, hbang.symm]
  simp only [Lexeme.ofMarkup, hafter]
  split
  · next heq =>
    cases heq
    exact absurd h (by decide)
  · next heq =>
    cases heq
    exact absurd h (by decide)
  · next heq =>
    cases heq
    exact absurd h (by decide)
  · next heq =>
    cases heq
    rw [if_pos h]
  · next heq => cases heq

namespace OpenTag

/-- What follows the name. -/
def tail (tag : OpenTag) : Text :=
  (tag.attributes.flatMap fun a => ' ' :: a.render) ++ closer tag.selfClosing

def render (tag : OpenTag) : Text := '<' :: (tag.name ++ tag.tail)

theorem tail_head {tag : OpenTag} (t : Text) :
    ∀ c ∈ (tag.tail ++ t).head?, c = ' ' ∨ c = '/' ∨ c = '>' := by
  rw [tail]
  cases tag.attributes with
  | nil => cases tag.selfClosing <;> simp [closer]
  | cons a attributes => simp

theorem Printable.throughTagEnd {tag : OpenTag} (h : tag.Printable) (t : Text) :
    throughTagEnd none (tag.tail ++ t) = (tag.tail, t) := by
  have hcloser : Markup.throughTagEnd none (closer tag.selfClosing ++ t) =
      (closer tag.selfClosing, t) := by
    cases tag.selfClosing <;> simp [closer, Markup.throughTagEnd]
  rw [tail, List.append_assoc, Inside.attributes h.attributes, hcloser]

/-- The lexer takes a written tag as a whole. -/
theorem Printable.first {tag : OpenTag} (h : tag.Printable) (t : Text) :
    Lexeme.first '<' (tag.name ++ (tag.tail ++ t)) = ⟨.openTag, tag.render, t⟩ := by
  have hname : ∀ c ∈ tag.name, (!(isBlank c || c == '/' || c == '>')) = true := by
    intro c hc
    have hmark := isMark_of_mem_elementName h.name c hc
    have hgt : c ≠ '>' := ne_of_isMark hmark (by decide)
    have hslash : c ≠ '/' := ne_of_isMark hmark (by decide)
    simp [isBlank_of_isMark hmark, hgt, hslash]
  have hstop : ∀ c ∈ (tag.tail ++ t).head?, ¬ (!(isBlank c || c == '/' || c == '>')) = true := by
    intro c hc
    rcases tail_head t c hc with rfl | rfl | rfl <;> decide
  have hopen : Lexeme.openTag (tag.name ++ (tag.tail ++ t)) = ⟨.openTag, tag.render, t⟩ := by
    simp only [Lexeme.openTag, takeWhile_append_of_head hname hstop,
      dropWhile_append_of_head hname hstop, h.throughTagEnd, render]
  obtain ⟨c, name, heq, hc⟩ := exists_of_isElementName h.name
  rw [heq, List.cons_append] at hopen ⊢
  exact (Lexeme.ofMarkup_of_isAlpha hc _).trans hopen

/-- The name of a written tag ends where its attributes start. -/
theorem Printable.ofExcerpt_eq {tag : OpenTag} (h : tag.Printable) (offset : Nat) :
    OpenTag.ofExcerpt ⟨offset, tag.render⟩ =
      ⟨tag.name, (readAttributes ⟨offset + 1 + tag.name.byteLength, tag.tail⟩).1,
        (readAttributes ⟨offset + 1 + tag.name.byteLength, tag.tail⟩).2,
        ⟨offset, tag.render.byteLength⟩⟩ := by
  have hname : ∀ c ∈ tag.name, (!(isAsciiBlank c || c == '>' || c == '/')) = true := by
    intro c hc
    have hmark := isMark_of_mem_elementName h.name c hc
    have hgt : c ≠ '>' := ne_of_isMark hmark (by decide)
    have hslash : c ≠ '/' := ne_of_isMark hmark (by decide)
    simp [isAsciiBlank_of_isMark hmark, hgt, hslash]
  have hstop : ∀ c ∈ tag.tail.head?, ¬ (!(isAsciiBlank c || c == '>' || c == '/')) = true := by
    intro c hc
    rcases tail_head [] c (by simpa using hc) with rfl | rfl | rfl <;> decide
  have hdrop := dropWhile_append_of_head hname hstop
  have htake := takeWhile_append_of_head hname hstop
  have he : (Excerpt.mk offset tag.render).drop 1 = ⟨offset + 1, tag.name ++ tag.tail⟩ := rfl
  simp only [OpenTag.ofExcerpt, he, Excerpt.takeWhile, Excerpt.dropWhile, htake, hdrop]
  rfl

/-- A written tag is read again. -/
theorem Printable.ofExcerpt {tag : OpenTag} (h : tag.Printable) (offset : Nat) :
    (OpenTag.ofExcerpt ⟨offset, tag.render⟩).bare = tag.bare := by
  have he : (Excerpt.mk (offset + 1 + tag.name.byteLength) tag.tail).text =
      renderAttributes tag.attributes ++ closer tag.selfClosing := rfl
  obtain ⟨found, hfound, hmap⟩ := readAttributes_render h.attributes he
  simp only [h.ofExcerpt_eq, hfound, OpenTag.bare, hmap]

end OpenTag

end TemplateProjection.Markup
