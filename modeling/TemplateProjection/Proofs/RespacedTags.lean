import TemplateProjection.Proofs.Placement
import TemplateProjection.Proofs.Respacing
import TemplateProjection.Proofs.TagText

/-!
Markup that differs in its blanks only has the same tokens, and the same tags with the same
attributes; inside a token the blanks may differ.
-/
namespace TemplateProjection

open Text

namespace Text

/-- The words, with one space between them. -/
def collapse (t : Text) : Text := join [' '] t.words

theorem Respaced.collapse_eq {t t' : Text} (h : Respaced t t') : collapse t = collapse t' := by
  rw [collapse, collapse, h.words_eq]

end Text

namespace Markup

variable {t t' w : Text} {e e' : Excerpt} {c : Char}

section Lexemes

theorem not_quote_of_isAsciiBlank (hc : isAsciiBlank c) :
    (decide (c = '"') || decide (c = '\'')) = false := by
  have hdouble : c ≠ '"' := ne_of_isAsciiBlank hc (by decide)
  have hsingle : c ≠ '\'' := ne_of_isAsciiBlank hc (by decide)
  simp [hdouble, hsingle]

theorem throughGt?_blanks (hw : ∀ c ∈ w, isAsciiBlank c) (t : Text) :
    throughGt? (w ++ t) = (throughGt? t).map fun p => (w ++ p.1, p.2) := by
  induction w with
  | nil => simp
  | cons c w ih =>
    obtain ⟨hc, hw⟩ := List.forall_mem_cons.1 hw
    have hgt : c ≠ '>' := ne_of_isAsciiBlank hc (by decide)
    simp only [List.cons_append, throughGt?, if_neg hgt, ih hw, Option.map_map]
    rfl

theorem throughGt?_respaced (h : Respaced t t') :
    Option.Rel RespacedParts (throughGt? t) (throughGt? t') := by
  induction h with
  | nil => exact .none
  | char hc h ih =>
    simp only [throughGt?]
    split
    · exact .some ⟨.char hc .nil, h⟩
    · exact rel_map ih fun _ _ hparts => ⟨.char hc hparts.1, hparts.2⟩
  | blanks hw hne hw' hne' _ ih =>
    rw [throughGt?_blanks hw, throughGt?_blanks hw']
    exact rel_map ih fun _ _ hparts => ⟨.blanks hw hne hw' hne' hparts.1, hparts.2⟩

theorem throughTagEnd_blanks {quote : Option Char} (hquote : ∀ q ∈ quote, ¬ isBlank q)
    (hw : ∀ c ∈ w, isAsciiBlank c) (t : Text) :
    throughTagEnd quote (w ++ t) =
      (w ++ (throughTagEnd quote t).1, (throughTagEnd quote t).2) := by
  induction w with
  | nil => rfl
  | cons c w ih =>
    obtain ⟨hc, hw⟩ := List.forall_mem_cons.1 hw
    cases quote with
    | some q =>
      have hne := ne_of_isAsciiBlank hc (hquote q rfl)
      simp only [List.cons_append, throughTagEnd, if_neg hne, ih hw]
    | none =>
      have hgt : c ≠ '>' := ne_of_isAsciiBlank hc (by decide)
      simp only [List.cons_append, throughTagEnd, if_neg hgt, not_quote_of_isAsciiBlank hc,
        Bool.false_eq_true, if_false, ih hw]

theorem throughTagEnd_respaced (quote : Option Char) (hquote : ∀ q ∈ quote, ¬ isBlank q)
    (h : Respaced t t') : RespacedParts (throughTagEnd quote t) (throughTagEnd quote t') := by
  induction h generalizing quote with
  | nil => cases quote <;> exact ⟨.nil, .nil⟩
  | @char c _ _ hc h ih =>
    cases quote with
    | some q =>
      have hnext : ∀ d ∈ (if c = q then none else some q), ¬ isBlank d := by
        split
        · simp
        · exact hquote
      exact ⟨.char hc (ih _ hnext).1, (ih _ hnext).2⟩
    | none =>
      simp only [throughTagEnd]
      split
      · exact ⟨.char hc .nil, h⟩
      · have hnext : ∀ d ∈ (if c = '"' || c = '\'' then some c else none), ¬ isBlank d := by
          split
          · simpa using hc
          · simp
        exact ⟨.char hc (ih _ hnext).1, (ih _ hnext).2⟩
  | blanks hw hne hw' hne' _ ih =>
    rw [throughTagEnd_blanks hquote hw, throughTagEnd_blanks hquote hw']
    exact ⟨.blanks hw hne hw' hne' (ih _ hquote).1, (ih _ hquote).2⟩

namespace Lexeme

/-- Tokens of one kind, in front of one text, apart from blanks. -/
structure Respaced (l l' : Lexeme) : Prop where
  kind : l.kind = l'.kind
  text : Text.Respaced l.text l'.text
  rest : Text.Respaced l.rest l'.rest

theorem lt_char (h : Text.Respaced t t') : Text.Respaced ('<' :: t) ('<' :: t') :=
  .char (by decide) h

theorem closedByGt_respaced (kind : TokenKind) (h : Text.Respaced t t') :
    Respaced (closedByGt kind t) (closedByGt kind t') := by
  have hrel := throughGt?_respaced h
  simp only [closedByGt]
  generalize throughGt? t = o, throughGt? t' = o' at hrel
  cases hrel with
  | none => exact ⟨rfl, lt_char h, .nil⟩
  | some hparts => exact ⟨rfl, lt_char hparts.1, hparts.2⟩

theorem openTag_respaced (h : Text.Respaced t t') : Respaced (openTag t) (openTag t') := by
  have hname : Uniform fun c => !(isBlank c || c == '/' || c == '>') :=
    .of_all (b := false) (by decide)
  have htail := throughTagEnd_respaced none (by simp) (h.dropWhile hname)
  exact ⟨rfl, lt_char ((h.takeWhile hname).append htail.1), htail.2⟩

theorem comment_respaced (h : Text.Respaced t t') : Respaced (comment t) (comment t') := by
  have hopen : Text.Respaced "<!--".toList "<!--".toList := .of_solid (by decide)
  have hclose : Text.Respaced "-->".toList "-->".toList := .of_solid (by decide)
  have hrel := h.around? "-->".toList (by simp) (by decide)
  simp only [comment]
  generalize Text.around? "-->".toList t = o, Text.around? "-->".toList t' = o' at hrel
  cases hrel with
  | none => exact ⟨rfl, hopen.append h, .nil⟩
  | some hparts => exact ⟨rfl, (hopen.append hparts.1).append hclose, hparts.2⟩

theorem strayLt_respaced (h : Text.Respaced t t') :
    Respaced ⟨.strayLt, ['<'], t⟩ ⟨.strayLt, ['<'], t'⟩ :=
  ⟨rfl, lt_char .nil, h⟩

theorem not_isAlpha_of_isAsciiBlank (h : isAsciiBlank c) : c.isAlpha = false := by
  simp only [isAsciiBlank, Bool.or_eq_true, beq_iff_eq] at h
  obtain (((rfl | rfl) | rfl) | rfl) | rfl := h <;> decide

theorem ofMarkup_cons (hbang : c ≠ '!') (hslash : c ≠ '/') (hquery : c ≠ '?') (t : Text) :
    ofMarkup (c :: t) = if c.isAlpha then openTag (c :: t) else ⟨.strayLt, ['<'], c :: t⟩ := by
  have hafter : Text.after? "!--".toList (c :: t) = none := if_neg hbang.symm
  simp only [ofMarkup, hafter]
  split
  · next h => exact absurd (List.cons.inj h).1 hslash
  · next h => exact absurd (List.cons.inj h).1 hquery
  · next h => exact absurd (List.cons.inj h).1 hbang
  · next h => rw [(List.cons.inj h).1]
  · next h => cases h

theorem ofMarkup_blank (hc : isAsciiBlank c) (t : Text) :
    ofMarkup (c :: t) = ⟨.strayLt, ['<'], c :: t⟩ := by
  rw [ofMarkup_cons (ne_of_isAsciiBlank hc (by decide)) (ne_of_isAsciiBlank hc (by decide))
    (ne_of_isAsciiBlank hc (by decide)), not_isAlpha_of_isAsciiBlank hc]
  rfl

/-- A `!` starts a comment or a declaration. -/
theorem ofMarkup_bang_respaced (h : Text.Respaced t t') :
    Respaced (ofMarkup ('!' :: t)) (ofMarkup ('!' :: t')) := by
  have hbang : Text.Respaced ('!' :: t) ('!' :: t') := .char (by decide) h
  have hrel := hbang.after? "!--".toList (by decide)
  simp only [ofMarkup]
  generalize Text.after? "!--".toList ('!' :: t) = o, Text.after? "!--".toList ('!' :: t') = o'
    at hrel
  cases hrel with
  | some hdata => exact comment_respaced hdata
  | none =>
    obtain ⟨rfl, rfl⟩ | ⟨d, u, u', rfl, rfl, -, -⟩ | ⟨d, d', u, u', rfl, rfl, hd, hd'⟩ :=
      h.head_cases
    · exact strayLt_respaced hbang
    · show Respaced (if d.isAlpha then closedByGt .declaration ('!' :: d :: u) else _)
        (if d.isAlpha then closedByGt .declaration ('!' :: d :: u') else _)
      split
      · exact closedByGt_respaced _ hbang
      · exact strayLt_respaced hbang
    · simp only [not_isAlpha_of_isAsciiBlank hd, not_isAlpha_of_isAsciiBlank hd']
      exact strayLt_respaced hbang

theorem ofMarkup_respaced (h : Text.Respaced t t') : Respaced (ofMarkup t) (ofMarkup t') := by
  obtain ⟨rfl, rfl⟩ | ⟨c, u, u', rfl, rfl, -, hu⟩ | ⟨c, c', u, u', rfl, rfl, hc, hc'⟩ :=
    h.head_cases
  · exact strayLt_respaced h
  · by_cases hbang : c = '!'
    · exact hbang ▸ ofMarkup_bang_respaced hu
    · by_cases hslash : c = '/'
      · subst hslash
        exact closedByGt_respaced .endTag h
      · by_cases hquery : c = '?'
        · subst hquery
          exact closedByGt_respaced .declaration h
        · rw [ofMarkup_cons hbang hslash hquery, ofMarkup_cons hbang hslash hquery]
          split
          · exact openTag_respaced h
          · exact strayLt_respaced h
  · rw [ofMarkup_blank hc, ofMarkup_blank hc']
    exact strayLt_respaced h

/-- The first tokens of respaced texts. -/
theorem first_respaced {c' : Char} (h : Text.Respaced (c :: t) (c' :: t')) :
    Respaced (first c t) (first c' t') := by
  have hlt : Uniform (· != '<') := .of_all (b := true) (by decide)
  by_cases hc : c = '<'
  · subst hc
    obtain ⟨u', hu', hu⟩ := h.of_cons (by decide)
    cases hu'
    exact ofMarkup_respaced hu
  · have hc' : c' ≠ '<' := by
      rintro rfl
      obtain ⟨u, hu, -⟩ := h.symm.of_cons (by decide)
      exact hc (List.cons.inj hu).1
    -- A text that does not start with the mark is taken up to the next one.
    have htext : ∀ {d : Char} {u : Text}, d ≠ '<' → first d u =
        ⟨.text, (d :: u).takeWhile (· != '<'), (d :: u).dropWhile (· != '<')⟩ := by
      intro d u hd
      simp [first, hd]
    rw [htext hc, htext hc']
    exact ⟨rfl, h.takeWhile hlt, h.dropWhile hlt⟩

end Lexeme

theorem commentData_respaced (h : Respaced t t') : Respaced (commentData t) (commentData t') := by
  have hdata := Respaced.getD (h.after? "<!--".toList (by decide)) h
  exact Respaced.getD (hdata.before? "-->".toList (by decide)) hdata

theorem dropOpeners_respaced (h : Respaced t t') :
    Respaced (endTagName.dropOpeners t) (endTagName.dropOpeners t') := by
  induction t using endTagName.dropOpeners.induct generalizing t' with
  | case1 t ih =>
    obtain ⟨u', rfl, hu⟩ := h.of_cons (by decide)
    obtain ⟨v', rfl, hv⟩ := hu.of_cons (by decide)
    simpa only [endTagName.dropOpeners] using ih hv
  | case2 t hother =>
    have hother' : ∀ u', t' ≠ '<' :: '/' :: u' := by
      rintro u' rfl
      obtain ⟨u, rfl, hu⟩ := h.symm.of_cons (by decide)
      obtain ⟨v, rfl, -⟩ := hu.of_cons (by decide)
      exact hother v rfl
    rwa [endTagName.dropOpeners.eq_2 t hother, endTagName.dropOpeners.eq_2 t' hother']

theorem endTagName_respaced (h : Respaced t t') : Respaced (endTagName t) (endTagName t') := by
  have hgt : Uniform (· == '>') := .of_all (b := false) (by decide)
  exact ((dropOpeners_respaced h).dropTrailing hgt).trimEnd

end Lexemes

section Tags

theorem closesTag_cons_cons (c d : Char) (t : Text) :
    closesTag (c :: d :: t) = (decide (c = '/') && decide (d = '>')) := by
  simp only [closesTag]
  split
  · next h => cases h
  · next h =>
    cases h
    rfl
  · next h =>
    by_cases hc : c = '/'
    · subst hc
      have hd : d ≠ '>' := by
        rintro rfl
        exact h t rfl
      simp [hd]
    · simp [hc]

theorem closesTag_respaced (c : Char) (h : Respaced t t') :
    closesTag (c :: t) = closesTag (c :: t') := by
  obtain ⟨rfl, rfl⟩ | ⟨d, u, u', rfl, rfl, -⟩ | ⟨d, d', u, u', rfl, rfl, hd, hd'⟩ := h.head_cases
  · rfl
  · simp only [closesTag_cons_cons]
  · have hgt : d ≠ '>' := ne_of_isAsciiBlank hd (by decide)
    have hgt' : d' ≠ '>' := ne_of_isAsciiBlank hd' (by decide)
    simp only [closesTag_cons_cons, hgt, hgt', decide_false]

theorem breakAt_endsAttributeName_respaced (h : Respaced t t') :
    RespacedParts (Text.breakAt endsAttributeName t) (Text.breakAt endsAttributeName t') := by
  refine h.breakAt (fun c t hc => by simp [endsAttributeName, hc]) fun c t t' _ h => ?_
  simp only [endsAttributeName, closesTag_respaced c h]

theorem readValue_respaced (h : Respaced t t') (start start' : Nat) :
    Respaced (readValue ⟨start, t⟩).1.text (readValue ⟨start', t'⟩).1.text ∧
      Respaced (readValue ⟨start, t⟩).2.text (readValue ⟨start', t'⟩).2.text := by
  have hunquoted : Uniform fun c => !(isAsciiBlank c || c == '>') :=
    .of_all (b := false) (by decide)
  obtain ⟨rfl, rfl⟩ | ⟨q, u, u', rfl, rfl, hq, hu⟩ | ⟨q, q', u, u', rfl, rfl, hq, hq'⟩ :=
    h.head_cases
  · exact ⟨.nil, .nil⟩
  · have hquote : Uniform (· != q) := by
      refine ⟨true, fun c hc => ?_⟩
      simpa using ne_of_isAsciiBlank hc hq
    simp only [readValue]
    split
    · refine ⟨hu.takeWhile hquote, (hu.dropWhile hquote).drop_one fun c hc => ?_⟩
      have hstop := List.head?_dropWhile_not (· != q) u
      rw [hc] at hstop
      have hcq : c = q := by simpa using hstop
      exact hcq ▸ hq
    · exact ⟨h.takeWhile hunquoted, h.dropWhile hunquoted⟩
  · simp only [readValue, not_quote_of_isAsciiBlank hq, not_quote_of_isAsciiBlank hq']
    exact ⟨h.takeWhile hunquoted, h.dropWhile hunquoted⟩

/-- The attribute without its spans, its value collapsed. -/
def Attribute.condense (a : Attribute) : Attribute :=
  ⟨a.name, .empty 0, a.value.map fun v => ⟨collapse v.text, .empty 0⟩, .empty 0⟩

def OpenTag.condense (tag : OpenTag) : OpenTag :=
  ⟨tag.name, tag.attributes.map Attribute.condense, tag.selfClosing, .empty 0⟩

/-- The names of attributes have no blanks, so they are the same. -/
theorem attributeName_eq (h : Respaced t t') :
    (Text.breakAt endsAttributeName t').1 = (Text.breakAt endsAttributeName t).1 := by
  have hname := (breakAt_endsAttributeName_respaced h).1
  refine hname.eq_of_solid fun c hc hblank => ?_
  exact not_isAsciiBlank_of_mem_name hc (hname.ascii c hc hblank)

theorem attribute?_condense {name name' : Excerpt} {value value' : Option Excerpt}
    (hname : name'.text = name.text)
    (hvalue : value.map (collapse ·.text) = value'.map (collapse ·.text)) (stop stop' : Nat) :
    (attribute? name value stop).map Attribute.condense =
      (attribute? name' value' stop').map Attribute.condense := by
  simp only [attribute?, hname]
  split
  · rfl
  · cases value with
    | none =>
      cases value' with
      | none => rfl
      | some _ => cases hvalue
    | some v =>
      cases value' with
      | none => cases hvalue
      | some v' =>
        have hcollapse : collapse v.text = collapse v'.text := Option.some.inj hvalue
        simp only [Option.map_some, Attribute.condense, hcollapse]

theorem readAttribute_respaced (h : Respaced e.text e'.text) :
    (readAttribute e).1.map Attribute.condense = (readAttribute e').1.map Attribute.condense ∧
      Respaced (readAttribute e).2.text (readAttribute e').2.text := by
  have hparts := breakAt_endsAttributeName_respaced h
  have hname := attributeName_eq h
  have hnext := hparts.2.dropWhile Respaced.uniform_isAsciiBlank
  simp only [readAttribute, Excerpt.breakAt, Excerpt.dropWhile]
  split
  · next u hu =>
    obtain ⟨u', hu', hrest⟩ := (hu ▸ hnext).of_cons (by decide)
    have hvalue := hrest.dropWhile Respaced.uniform_isAsciiBlank
    simp only [hu, hu', Excerpt.drop, List.drop_succ_cons, List.drop_zero]
    refine ⟨attribute?_condense hname ?_ _ _, (readValue_respaced hvalue _ _).2⟩
    exact congrArg some (readValue_respaced hvalue _ _).1.collapse_eq
  · next hother =>
    split
    · next u' hu' =>
      obtain ⟨u, hu, -⟩ := (hu' ▸ hnext.symm).of_cons (by decide)
      exact absurd hu (hother u)
    · exact ⟨attribute?_condense hname rfl _ _, hparts.2⟩

/-- Blanks in front are passed over. -/
theorem readAttributes_trim (e : Excerpt) :
    ∃ d : Excerpt, d.text = e.text.dropWhile isAsciiBlank ∧
      readAttributes e = readAttributes d := by
  obtain ⟨start, t⟩ := e
  induction t generalizing start with
  | nil => exact ⟨⟨start, []⟩, rfl, rfl⟩
  | cons c t ih =>
    by_cases hc : isAsciiBlank c
    · obtain ⟨d, hd, hread⟩ := ih (start + Text.byteLength [c])
      refine ⟨d, by rw [hd, List.dropWhile_cons_of_pos hc], ?_⟩
      rw [readAttributes_blank rfl hc, ← hread]
      rfl
    · exact ⟨⟨start, c :: t⟩, (List.dropWhile_cons_of_neg hc).symm, rfl⟩

theorem readAttributes_cons (he : e.text = c :: t) (hblank : ¬ isAsciiBlank c) :
    readAttributes e =
      if c = '>' then ([], false)
      else if closesTag (c :: t) then ([], true)
      else if c = '/' then readAttributes (e.drop 1)
      else ((readAttribute e).1.toList ++ (readAttributes (readAttribute e).2).1,
        (readAttributes (readAttribute e).2).2) := by
  conv => lhs; rw [readAttributes]
  split
  · next hnil => simp [he] at hnil
  · next c' t' hcons =>
    obtain ⟨rfl, rfl⟩ := List.cons.inj (he.symm.trans hcons)
    rw [dif_neg hblank]
    rfl

/-- Respaced tags have the same attributes, and agree on closing themselves. -/
theorem readAttributes_respaced (h : Respaced e.text e'.text) :
    (readAttributes e).1.map Attribute.condense = (readAttributes e').1.map Attribute.condense ∧
      (readAttributes e).2 = (readAttributes e').2 := by
  -- One attribute or one stray `/` is read at a time, after the blanks in front of it.
  induction hn : e.text.length using Nat.strong_induction_on generalizing e e' with
  | _ n ih =>
    obtain ⟨d, hd, hread⟩ := readAttributes_trim e
    obtain ⟨d', hd', hread'⟩ := readAttributes_trim e'
    have hle := Text.length_dropWhile_le isAsciiBlank e.text
    have hdrop := h.dropWhile Respaced.uniform_isAsciiBlank
    rw [← hd] at hle
    rw [← hd, ← hd'] at hdrop
    rw [hread, hread']
    obtain ⟨hnil, hnil'⟩ | ⟨c, u, u', hc, hc', hsolid, hu⟩ | ⟨c, _, u, _, hc, -, hblank, -⟩ :=
      hdrop.head_cases
    · have hempty : ∀ {e : Excerpt}, e.text = [] → readAttributes e = ([], false) := by
        rintro ⟨start, _⟩ rfl
        rw [readAttributes]
      rw [hempty hnil, hempty hnil']
      exact ⟨rfl, rfl⟩
    · have hblank : ¬ isAsciiBlank c := fun hblank => hsolid (isBlank_of_isAsciiBlank hblank)
      rw [readAttributes_cons hc hblank, readAttributes_cons hc' hblank, closesTag_respaced c hu]
      split
      · exact ⟨rfl, rfl⟩
      · next hgt =>
        split
        · exact ⟨rfl, rfl⟩
        · next hclose =>
          split
          · refine ih _ ?_ ?_ rfl
            · have hlt := length_drop_one_lt hc
              omega
            · simpa [Excerpt.drop, hc, hc'] using hu
          · have hone := readAttribute_respaced hdrop
            have hlt := readAttribute_length_lt hc (by simpa using hblank) hgt
              (by simpa [closesTag_respaced c hu] using hclose)
            have hrest := ih _ (by omega) hone.2 rfl
            refine ⟨?_, hrest.2⟩
            rw [List.map_append, List.map_append, hrest.1, ← Option.toList_map, hone.1,
              Option.toList_map]
    · have hstop := List.head?_dropWhile_not isAsciiBlank e.text
      rw [← hd, hc] at hstop
      simp [hblank] at hstop

theorem not_isAsciiBlank_of_mem_tagName (h : c ∈ (OpenTag.ofExcerpt e).name) :
    ¬ isAsciiBlank c := by
  intro hc
  have hname := List.mem_takeWhile_imp (show c ∈ List.takeWhile _ _ from h)
  simp [hc] at hname

/-- Respaced tags are the same tag, apart from blanks in the values of its attributes. -/
theorem OpenTag.ofExcerpt_condense (h : Respaced e.text e'.text)
    (hhead : ∀ c ∈ e.text.head?, ¬ isBlank c) :
    (OpenTag.ofExcerpt e).condense = (OpenTag.ofExcerpt e').condense := by
  have hp : Uniform fun c => !(isAsciiBlank c || c == '>' || c == '/') :=
    .of_all (b := false) (by decide)
  have hdrop := h.drop_one hhead
  have hname : (OpenTag.ofExcerpt e').name = (OpenTag.ofExcerpt e).name := by
    have hrespaced := hdrop.takeWhile hp
    refine hrespaced.eq_of_solid fun c hc hblank => ?_
    exact not_isAsciiBlank_of_mem_tagName (e := e) hc (hrespaced.ascii c hc hblank)
  obtain ⟨hattributes, hclosed⟩ := @readAttributes_respaced ((e.drop 1).dropWhile _)
    ((e'.drop 1).dropWhile _) (hdrop.dropWhile hp)
  rw [OpenTag.condense, OpenTag.condense, hname]
  exact congrArg₂ (OpenTag.mk _ · · _) hattributes hclosed

end Tags

end Markup

end TemplateProjection
