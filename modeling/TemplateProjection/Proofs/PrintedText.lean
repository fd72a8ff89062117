import TemplateProjection.Proofs.Reindenting
import TemplateProjection.Proofs.Rendering

/-! Printed markup spells out its forest, whatever blanks stand in front of its lines. -/
namespace TemplateProjection.Markup

open Text (SameContent)

variable {d : Nat} {x data : Text} {lines lines' : List Text} {ss ss' : List Shape}

def ShapesApart (ss : List Shape) : Prop := ss.IsChain fun s s' => ¬ (s.isText ∧ s'.isText)

/-- The lines spell out the shapes, behind whatever blanks and before whatever comes after. -/
def LinesSpell (lines : List Text) (ss : List Shape) : Prop :=
  ∀ lines', List.Forall₂ SameContent (lines.flatMap (Text.split '\n')) lines' →
    ∀ after ss', Spells after ss' → ShapesApart (ss ++ ss') →
      Spells (Text.stack lines' ++ after) (ss ++ ss')

theorem LinesSpell.nil : LinesSpell [] [] := by
  intro lines' hsame after ss' hafter _
  cases hsame
  exact hafter

theorem LinesSpell.append (h : LinesSpell lines ss) (h' : LinesSpell lines' ss') :
    LinesSpell (lines ++ lines') (ss ++ ss') := by
  intro all hsame after more hafter hapart
  rw [List.flatMap_append] at hsame
  obtain ⟨first, rest, rfl, hfirst, hrest⟩ := exists_append_of_forall₂ hsame
  rw [List.append_assoc] at hapart ⊢
  rw [Text.stack_append, List.append_assoc]
  exact h first hfirst _ _ (h' rest hrest after more hafter (hapart.right_of_append)) hapart

theorem isBlank_indentation (d : Nat) : ∀ c ∈ indentation d, isBlank c := by
  intro c hc
  rw [List.eq_of_mem_replicate hc]
  decide

theorem feed_not_mem_indentation (d : Nat) : '\n' ∉ indentation d :=
  fun hfeed => absurd (List.eq_of_mem_replicate hfeed) (by decide)

/-- What is printed on one line. -/
theorem line_sameContent (hx : ∀ c ∈ x.head?, ¬ isBlank c) (hfeed : '\n' ∉ x)
    (h : List.Forall₂ SameContent (Text.split '\n' (indentation d ++ x)) lines') :
    ∃ w, (∀ c ∈ w, isBlank c) ∧ Text.stack lines' = w ++ x := by
  have hline : '\n' ∉ indentation d ++ x := by simp [feed_not_mem_indentation, hfeed]
  rw [Text.split_eq_singleton hline] at h
  obtain ⟨line, rest, hline, hrest, rfl⟩ := List.forall₂_cons_left_iff.1 h
  cases hrest
  obtain ⟨w, rfl, hw, -⟩ := hline.of_content (isBlank_indentation d) hx
  exact ⟨'\n' :: w, List.forall_mem_cons.2 ⟨by decide, hw⟩, by simp⟩

theorem linesSpell_line (hx : ∀ c ∈ x.head?, ¬ isBlank c) (hfeed : '\n' ∉ x)
    (h : ∀ after ss', Spells after ss' → Spells (x ++ after) (ss ++ ss')) :
    LinesSpell [indentation d ++ x] ss := by
  intro lines' hsame after ss' hafter _
  rw [List.flatMap_singleton] at hsame
  obtain ⟨w, hw, hstack⟩ := line_sameContent hx hfeed hsame
  rw [hstack, List.append_assoc]
  exact (h after ss' hafter).blank_append hw

/-! ## Texts and comments -/

section Text

variable {t line : Text} {span : Span}

/-- Only blanks are printed that were not in the text. -/
theorem mem_of_mem_printLines_text {c : Char} (h : line ∈ (Node.text t span).printLines d)
    (hc : c ∈ line) : c = ' ' ∨ c ∈ t ∧ c ≠ '\n' := by
  rw [Node.printLines_text] at h
  obtain ⟨l, hl, rfl⟩ := List.mem_map.1 h
  rcases List.mem_append.1 hc with hc | hc
  · exact Or.inl (List.eq_of_mem_replicate hc)
  · have hmem := (List.mem_filter.1 hl).1
    refine Or.inr ⟨(Text.infix_of_mem_trimmedLines hmem).subset hc, ?_⟩
    rintro rfl
    exact Text.feed_not_mem_of_mem_trimmedLines hmem hc

theorem feed_not_mem_printLines_text (h : line ∈ (Node.text t span).printLines d) :
    '\n' ∉ line := by
  intro hfeed
  rcases mem_of_mem_printLines_text h hfeed with hspace | ⟨-, hne⟩
  · exact absurd hspace (by decide)
  · exact hne rfl

theorem words_printLines_text (t : Text) (span : Span) (d : Nat) :
    ((Node.text t span).printLines d).flatMap Text.words = t.words := by
  simp only [Node.printLines_text, List.flatMap_map,
    Text.words_blank_append (isBlank_indentation d), Text.words_solidLines]

theorem linesSpell_text (span : Span) (hlt : '<' ∉ t) (hwords : t.words ≠ []) :
    LinesSpell ((Node.text t span).printLines d) [.text t.words] := by
  intro lines' hsame after ss' hafter hapart
  rw [Text.flatMap_split fun _ => feed_not_mem_printLines_text] at hsame
  have hall : (Text.stack lines').words = t.words := by
    calc (Text.stack lines').words
      _ = lines'.flatMap Text.words := Text.words_stack _
      _ = ((Node.text t span).printLines d).flatMap Text.words :=
        flatMap_eq_of_forall₂ hsame fun _ _ _ h => h.words_eq
      _ = t.words := words_printLines_text t span d
  have hnot : '<' ∉ Text.stack lines' := by
    intro hmem
    obtain ⟨line', hline', hmem⟩ := List.mem_flatMap.1 hmem
    obtain ⟨line, hline, hsameLine⟩ := exists_of_mem_forall₂ hsame hline'
    have hold := hsameLine.mem (by simpa using hmem) (by decide)
    rcases mem_of_mem_printLines_text hline hold with hspace | ⟨hmem, -⟩
    · exact absurd hspace (by decide)
    · exact hlt hmem
  have hhead : ∀ s ∈ ss'.head?, s.isText = false := by
    intro s hs
    have hnext := (List.isChain_cons.1 hapart).1 s hs
    simpa [Shape.isText] using hnext
  have htext := hafter.text_append hnot (hall ▸ hwords) hhead
  rw [hall] at htext
  exact htext

end Text

theorem solidLines_sameContent {first : Text} {below below' : List Text}
    (hfeed : ∀ line ∈ below, '\n' ∉ line) (h : List.Forall₂ SameContent below below') :
    (first ++ Text.stack below').solidLines = (first ++ Text.stack below).solidLines := by
  rw [Text.solidLines_stack, Text.solidLines_stack,
    flatMap_eq_of_forall₂ h fun line hline _ hsame => hsame.solidLines_eq (hfeed line hline)]

theorem close_infix_of_sameContent {first : Text} {below below' : List Text}
    (h : List.Forall₂ SameContent below below')
    (hin : "-->".toList <:+: first ++ Text.stack below') :
    "-->".toList <:+: first ++ Text.stack below := by
  rw [← Text.join_eq_stack] at hin ⊢
  obtain ⟨line, hline, hfound⟩ := Text.exists_infix_of_infix_join (by decide) (by decide) hin
  rcases List.mem_cons.1 hline with rfl | hline
  · exact hfound.trans (Text.infix_join _ List.mem_cons_self)
  · obtain ⟨old, hold, hsame⟩ := exists_of_mem_forall₂ h hline
    exact (hsame.isInfix (by decide) hfound).trans (Text.infix_join _ (List.mem_cons_of_mem _ hold))

theorem not_isBlank_head_comment (t : Text) :
    ∀ c ∈ ("<!--".toList ++ t).head?, ¬ isBlank c := by
  rintro c ⟨⟩
  decide

/-- A comment of several lines opens on the first and closes on the last. -/
theorem split_comment {first last : Text} {inside : List Text} (hfirst : '\n' ∉ first)
    (hbelow : ∀ line ∈ inside ++ [last], '\n' ∉ line) :
    Text.split '\n' (indentation d ++ "<!--".toList ++
        (first ++ Text.stack (inside ++ [last])) ++ "-->".toList) =
      (indentation d ++ ("<!--".toList ++ first)) :: (inside ++ [last ++ "-->".toList]) := by
  obtain ⟨hinside, hlast⟩ := List.forall_mem_append.1 hbelow
  have hopening : '\n' ∉ indentation d ++ ("<!--".toList ++ first) := by
    simp [feed_not_mem_indentation, hfirst]
  have hclosing : '\n' ∉ last ++ "-->".toList := by simpa using hlast
  have hrest : ∀ line ∈ inside ++ [last ++ "-->".toList], '\n' ∉ line :=
    List.forall_mem_append.2 ⟨hinside, List.forall_mem_singleton.2 hclosing⟩
  have hsplit := Text.split_stack (indentation d ++ ("<!--".toList ++ first))
    (inside ++ [last ++ "-->".toList])
  rw [Text.split_eq_singleton hopening, Text.flatMap_split hrest] at hsplit
  simpa using hsplit

/-- The lines of a comment are a comment with the same lines. -/
theorem comment_sameContent
    (h : List.Forall₂ SameContent
      (Text.split '\n' (indentation d ++ "<!--".toList ++ data ++ "-->".toList)) lines') :
    ∃ w data', (∀ c ∈ w, isBlank c) ∧
      Text.stack lines' = w ++ ("<!--".toList ++ (data' ++ "-->".toList)) ∧
      data'.solidLines = data.solidLines ∧ ("-->".toList <:+: data' → "-->".toList <:+: data) := by
  obtain ⟨first, below, rfl, hfirst, hbelow⟩ := Text.exists_eq_stack data
  cases below using List.reverseRecOn with
  | nil =>
    have hfeed : '\n' ∉ "<!--".toList ++ (first ++ "-->".toList) := by simpa using hfirst
    simp only [Text.stack_nil, List.append_nil, List.append_assoc] at h ⊢
    obtain ⟨w, hw, hstack⟩ := line_sameContent (not_isBlank_head_comment _) hfeed h
    exact ⟨w, first, hw, hstack, rfl, id⟩
  | append_singleton inside last =>
    -- the marks share their lines with the first and the last line of the data
    rw [split_comment hfirst hbelow] at h
    obtain ⟨opening', rest', hopening, hrest, rfl⟩ := List.forall₂_cons_left_iff.1 h
    obtain ⟨inside', closing', rfl, hinside, hclosing⟩ := exists_append_of_forall₂ hrest
    obtain ⟨line', none', hline, hnone, rfl⟩ := List.forall₂_cons_left_iff.1 hclosing
    cases hnone
    obtain ⟨w, rfl, hw, -⟩ :=
      hopening.of_content (isBlank_indentation d) (not_isBlank_head_comment first)
    obtain ⟨last', rfl, hsame⟩ := hline.of_append (by rintro c ⟨⟩; decide)
    have hall : List.Forall₂ SameContent (inside ++ [last]) (inside' ++ [last']) :=
      List.rel_append hinside (.cons hsame .nil)
    refine ⟨'\n' :: w, first ++ Text.stack (inside' ++ [last']), ?_, by simp,
      solidLines_sameContent hbelow hall, close_infix_of_sameContent hall⟩
    exact List.forall_mem_cons.2 ⟨by decide, hw⟩

theorem linesSpell_comment (span : Span) (h : ¬ "-->".toList <:+: data) :
    LinesSpell ((Node.comment data span).printLines d) [.comment data.solidLines] := by
  intro lines' hsame after ss' hafter _
  rw [Node.printLines, List.flatMap_singleton] at hsame
  obtain ⟨w, data', hw, hstack, hsolid, hclose⟩ := comment_sameContent hsame
  have hcomment : Atom _ (.comment data' span) := .comment span fun hin => h (hclose hin)
  have hspells := (hafter.atom hcomment).blank_append hw
  rw [Node.shape?, hsolid] at hspells
  rw [hstack, List.append_assoc]
  exact hspells

/-! ## Elements -/

theorem shapes_of_not_isContent {nodes : List Node} (h : nodes.any Node.isContent = false) :
    shapes nodes = [] := by
  rw [← shapes_tidyAll, tidyAll_of_not_isContent h, shapes]

variable {tag : OpenTag} {children : List Node}

theorem OpenTag.render_eq (tag : OpenTag) :
    tag.render = tag.renderOpen ++ closer tag.selfClosing := by
  simp [OpenTag.render, OpenTag.tail, OpenTag.renderOpen]

theorem OpenTag.not_isBlank_head (tag : OpenTag) (t : Text) :
    ∀ c ∈ (tag.render ++ t).head?, ¬ isBlank c := by
  rintro c ⟨⟩
  decide

theorem OpenTag.render_of_open (h : tag.selfClosing = false) :
    tag.renderOpen ++ ['>'] = tag.render := by
  rw [OpenTag.render_eq, h]
  rfl

theorem printLines_leaf (span : Span) (endName : Option Span)
    (hleaf : tag.selfClosing || isVoid tag.name) :
    (Node.element tag children span endName).printLines d = [indentation d ++ tag.render] := by
  cases hclosed : tag.selfClosing with
  | true => simp [Node.printLines, OpenTag.render_eq, hclosed, closer]
  | false =>
    have hvoid : isVoid tag.name := by simpa [hclosed] using hleaf
    simp [Node.printLines, hclosed, hvoid, OpenTag.render_of_open hclosed]

theorem printLines_element (span : Span) (endName : Option Span)
    (hopen : (tag.selfClosing || isVoid tag.name) = false) :
    (Node.element tag children span endName).printLines d =
      if children.any Node.isContent then
        [indentation d ++ tag.render] ++ printAllLines (d + 1) children ++
          [indentation d ++ renderEndTag tag.name]
      else [indentation d ++ (tag.render ++ renderEndTag tag.name)] := by
  obtain ⟨hclosed, hvoid⟩ := Bool.or_eq_false_iff.1 hopen
  simp [Node.printLines, hclosed, hvoid, ← OpenTag.render_of_open hclosed]

theorem linesSpell_leaf (span : Span) (endName : Option Span) (htag : tag.Printable)
    (hleaf : tag.selfClosing || isVoid tag.name) (hfeed : '\n' ∉ tag.render) :
    LinesSpell ((Node.element tag [] span endName).printLines d)
      [.element tag.name (tag.attributes.map Attribute.shape) []] := by
  rw [printLines_leaf span endName hleaf]
  refine linesSpell_line (by simpa using tag.not_isBlank_head []) hfeed fun after ss' hafter => ?_
  exact hafter.atom (.leaf span endName htag hleaf)

theorem linesSpell_element (span : Span) (endName : Option Span) (htag : tag.Printable)
    (hopen : (tag.selfClosing || isVoid tag.name) = false) (hfeed : '\n' ∉ tag.render)
    (hchildren : LinesSpell (printAllLines (d + 1) children) (shapes children))
    (hapart : ShapesApart (shapes children)) :
    LinesSpell ((Node.element tag children span endName).printLines d)
      [.element tag.name (tag.attributes.map Attribute.shape) (shapes children)] := by
  have hend : '\n' ∉ renderEndTag tag.name := by
    simpa [renderEndTag] using not_mem_elementName htag.name (by decide)
  rw [printLines_element span endName hopen]
  cases hcontent : children.any Node.isContent with
  | false =>
    have hboth : '\n' ∉ tag.render ++ renderEndTag tag.name := by simp [hfeed, hend]
    rw [shapes_of_not_isContent hcontent]
    refine linesSpell_line (tag.not_isBlank_head _) hboth fun after ss' hafter => ?_
    simpa using Spells.element htag hopen (Spells.blank (t := []) (by simp)) hafter
  | true =>
    intro lines' hsame after ss' hafter _
    rw [if_pos rfl, List.flatMap_append, List.flatMap_append, List.flatMap_singleton,
      List.flatMap_singleton] at hsame
    obtain ⟨front, closing, rfl, hfront, hclosing⟩ := exists_append_of_forall₂ hsame
    obtain ⟨opening, inside, rfl, hopening, hinside⟩ := exists_append_of_forall₂ hfront
    have hhead := tag.not_isBlank_head []
    rw [List.append_nil] at hhead
    obtain ⟨w, hw, hstack⟩ := line_sameContent hhead hfeed hopening
    obtain ⟨w', hw', hstack'⟩ := line_sameContent (by rintro c ⟨⟩; decide) hend hclosing
    -- the blanks before the end tag belong to the content
    have hinner := hchildren inside hinside w' [] (.blank hw') (by simpa using hapart)
    have hspells := (Spells.element htag hopen hinner hafter).blank_append hw
    simpa [hstack, hstack'] using hspells

end TemplateProjection.Markup

namespace TemplateProjection.Outline

open Markup (LinesSpell ShapesApart isElementName isVoid printAllLines shapes)

variable {tag : Tag} {item : Item} {items : List Item} {d : Nat}

theorem Attribute.Settled.feed_not_mem_render {a : Attribute} (h : a.Settled) :
    '\n' ∉ (a.toMarkup id).render := by
  obtain ⟨v, hv, hplain⟩ := h.value
  have hname : '\n' ∉ a.name := Markup.not_mem_attributeName h.name (by decide)
  have hvalue : '\n' ∉ v := fun hmem => absurd (hplain.printable _ hmem) (by decide)
  simp only [toMarkup, hv, Markup.Attribute.render, Option.map_some, id]
  split <;> simp [hname, hvalue]

theorem Tag.feed_not_mem_render (hname : isElementName tag.name)
    (hattributes : ∀ a ∈ tag.attributes, a.Settled) : '\n' ∉ (tag.toMarkup id).render := by
  have hfeed : '\n' ∉ tag.name := Markup.not_mem_elementName hname (by decide)
  have hall : '\n' ∉ (tag.toMarkup id).attributes.flatMap fun a => ' ' :: a.render := by
    intro hmem
    obtain ⟨a, ha, hmem⟩ := List.mem_flatMap.1 hmem
    obtain ⟨b, hb, rfl⟩ := List.mem_map.1 ha
    exact (hattributes b hb).feed_not_mem_render (by simpa using hmem)
  have hcloser : ∀ closed, '\n' ∉ Markup.closer closed := by decide
  simp only [Markup.OpenTag.render_eq, Markup.OpenTag.renderOpen, List.mem_append, List.mem_cons,
    not_or]
  exact ⟨⟨⟨by decide, hfeed⟩, hall⟩, hcloser _⟩

theorem Item.Settled.shape_toNode (h : item.Settled) :
    ∃ s, (item.toNode id).shape? = some s ∧ s.isText = item.isText := by
  cases h with
  | element => exact ⟨_, rfl, rfl⟩
  | @text t hlt hamp hwords =>
    exact ⟨.text t.words, by simp [toNode, Markup.Node.shape?, hwords], rfl⟩
  | comment => exact ⟨_, rfl, rfl⟩

theorem shapesApart_toNodes (h : ∀ item ∈ items, item.Settled) (hapart : ItemsApart items) :
    ShapesApart (shapes (toNodes id items)) := by
  induction items with
  | nil => exact .nil
  | cons item items ih =>
    obtain ⟨hitem, hitems⟩ := List.forall_mem_cons.1 h
    obtain ⟨hnext, hapart⟩ := List.isChain_cons.1 hapart
    obtain ⟨s, hs, htext⟩ := hitem.shape_toNode
    rw [toNodes, shapes, hs]
    refine List.isChain_cons.2 ⟨?_, ih hitems hapart⟩
    intro s' hs'
    cases items with
    | nil => cases hs'
    | cons next items =>
      obtain ⟨s'', hs'', htext'⟩ := (hitems next List.mem_cons_self).shape_toNode
      rw [toNodes, shapes, hs''] at hs'
      cases hs'
      rw [htext, htext']
      exact hnext next rfl

theorem linesSpell_toNodes (h : ∀ item ∈ items,
      LinesSpell ((item.toNode id).printLines d) (item.toNode id).shape?.toList) :
    LinesSpell (printAllLines d (toNodes id items)) (shapes (toNodes id items)) := by
  induction items with
  | nil => exact .nil
  | cons item items ih =>
    obtain ⟨hitem, hitems⟩ := List.forall_mem_cons.1 h
    exact hitem.append (ih hitems)

theorem Item.Settled.linesSpell (h : item.Settled) (d : Nat) :
    LinesSpell ((item.toNode id).printLines d) (item.toNode id).shape?.toList := by
  induction h generalizing d with
  | @element tag children hname hattributes hopen hleaf hapart hchildren ih =>
    have htag := Tag.printable hname fun a ha => (hattributes a ha).printable
    have hfeed := Tag.feed_not_mem_render hname hattributes
    by_cases hvoid : isVoid tag.name
    · rw [hleaf hvoid]
      exact Markup.linesSpell_leaf _ _ htag (by simp [Tag.toMarkup, hvoid]) hfeed
    · have hcontent := linesSpell_toNodes fun child hchild => ih child hchild (d + 1)
      exact Markup.linesSpell_element _ _ htag (by simp [Tag.toMarkup, hopen, hvoid]) hfeed hcontent
        (shapesApart_toNodes hchildren hapart)
  | @text t hlt hamp hwords =>
    have hshape : (toNode id (.text t)).shape?.toList = [.text t.words] := by
      simp [toNode, Markup.Node.shape?, hwords]
    rw [hshape]
    exact Markup.linesSpell_text _ hlt hwords
  | comment hamp hclose => exact Markup.linesSpell_comment _ (close_not_infix_append hclose)

end TemplateProjection.Outline
