import TemplateProjection.Proofs.OutlineLines
import TemplateProjection.Proofs.PrintedText

/-! A plain forest written as an outline and turned into markup again says what it said before. -/
namespace TemplateProjection.Outline

open Markup (PlainForest Spells prettyPrint normalizeAll printAllLines shapes)

variable {nodes : List Markup.Node} {items : List Item} {lines : List Text} {style : Style}

/-- The markup of an outline is printed from the items that were written. -/
theorem prettyPrint_compile (hstyle : style.Indents) (h : PlainForest nodes) :
    prettyPrint (normalizeAll (Markup.parse (compile (ofMarkup style nodes)))) =
      prettyPrint (toNodes id (itemsOfAll nodes)) := by
  have hsettled := itemsOfAll_settled nodes h.plain
  have hapart := (itemsApart_of_textsApart h.plain h.apart).1
  have hparse : Markup.bareAll (Markup.parse (compile (ofMarkup style nodes))) =
      Markup.bareAll (toNodes Entity.escape (itemsOfAll nodes)) := by
    rw [compile, parse_ofMarkup hstyle h.plain]
    exact Markup.parse_written (written_renderAll _ false hsettled hapart (by simp))
  -- the two forests differ in their spans, which printing does not look at
  rw [Markup.prettyPrint_normalizeAll_congr hparse, normalizeAll_toNodes _ hsettled]

/-- Printed items are read as what they say, whatever blanks stand in front of the lines. -/
theorem shapes_parse_lines (h : ∀ item ∈ items, item.Settled) (hapart : ItemsApart items)
    (hsame : List.Forall₂ Text.SameContent (Text.split '\n' (prettyPrint (toNodes id items)))
      lines) :
    shapes (Markup.parse (Text.trim (Text.join ['\n'] lines))) = shapes (toNodes id items) := by
  have hlines := linesSpell_toNodes fun item hitem => (h item hitem).linesSpell 0
  have hshapes : Markup.ShapesApart (shapes (toNodes id items) ++ []) := by
    simpa using shapesApart_toNodes h hapart
  cases lines with
  | nil => exact absurd (List.forall₂_nil_right_iff.1 hsame) (Text.split_ne_nil _ _)
  | cons line lines =>
    apply Spells.shapes_parse
    by_cases hnone : printAllLines 0 (toNodes id items) = []
    · -- nothing is printed, and the one line is blank
      rw [prettyPrint, hnone] at hsame
      obtain ⟨hline, hrest⟩ := List.forall₂_cons.1 hsame
      cases hrest
      obtain ⟨w, rfl, hw, -⟩ := hline
      rw [hnone] at hlines
      have hspells := hlines [] .nil w [] (.blank hw) hshapes
      have hjoin : Text.join ['\n'] [w ++ Text.trimStart []] = w := by simp [Text.trimStart]
      rw [hjoin]
      simpa using hspells.trim
    · rw [prettyPrint, Text.split_join_lines hnone] at hsame
      have hspells := hlines _ hsame [] [] (.blank (by simp)) hshapes
      have hstack : Text.stack (line :: lines) = ['\n'] ++ Text.join ['\n'] (line :: lines) := by
        rw [Text.join_eq_stack]
        rfl
      have hfeed : ∀ c ∈ ['\n'], isBlank c := List.forall_mem_singleton.2 (by decide)
      have htrim := hspells.trim
      rwa [List.append_nil, List.append_nil, hstack, Text.trim_blank_append hfeed] at htrim

theorem utf8Size_of_mem_ofMarkup (hstyle : style.Indents) (h : ∀ node ∈ nodes, node.Plain) :
    ∀ c ∈ ofMarkup style nodes, c.utf8Size = 1 := by
  intro c hc
  have hascii : c.toNat < 128 := by
    rcases isLineChar_ofMarkup hstyle h c hc with hc | rfl
    · exact toNat_lt_of_isLineChar hc
    · decide
  exact beq_iff_eq.1 (ascii_imp (fun _ => true) (fun c => c.utf8Size == 1) (by decide) hascii rfl)

/-- Writing a plain forest as an outline and lowering the outline to markup keeps what the forest
says. -/
theorem round_trip_preserves_shapes (h : PlainForest nodes)
    (hstyle : style.useTabs ∨ 1 ≤ style.indentWidth) :
    ∃ markup, toMarkup? (ofMarkup style nodes) = some markup ∧
      shapes (Markup.parse markup) = shapes nodes := by
  have hsettled := itemsOfAll_settled nodes h.plain
  have hapart := (itemsApart_of_textsApart h.plain h.apart).1
  obtain ⟨lines, hlines, hsame⟩ := reindent?_spec (utf8Size_of_mem_ofMarkup hstyle h.plain)
    (prettyPrint (toNodes id (itemsOfAll nodes)))
  refine ⟨_, by rw [toMarkup?, prettyPrint_compile hstyle h, hlines], ?_⟩
  rw [shapes_parse_lines hsettled hapart hsame, shapes_itemsOfAll]

/-- A paragraph with a quoted title and a text of two lines, then a comment that ends in hyphens. -/
def note : List Markup.Node :=
  [.element
      ⟨"p".toList, [⟨"title".toList, .empty 0, some ⟨"a \"b\" ".toList, .empty 0⟩, .empty 0⟩],
        false, .empty 0⟩
      [.text " two\nwords ".toList (.empty 0),
        .element ⟨"br".toList, [], true, .empty 0⟩ [] (.empty 0) none]
      (.empty 0) none,
    .comment "x\n  y --".toList (.empty 0)]

theorem plainForest_note : PlainForest note where
  plain := by
    have hchars : ∀ t : Text, (t.all fun c => Markup.isPrintable c || c == '\n') →
        ∀ c ∈ t, Markup.isPrintable c ∨ c = '\n' := fun t ht c hc => by
      simpa using List.all_eq_true.1 ht c hc
    have htext : Markup.PlainText " two\nwords ".toList :=
      ⟨hchars _ (by decide), by decide, by decide⟩
    have hcomment : Markup.PlainComment "x\n  y --".toList :=
      ⟨hchars _ (by decide), by decide, by decide +kernel⟩
    have hvalue : Markup.PlainValue "a \"b\" ".toList :=
      ⟨List.all_eq_true.1 (by decide), by decide, by decide, by decide +kernel⟩
    have hbreak : Markup.Node.Plain
        (.element ⟨"br".toList, [], true, .empty 0⟩ [] (.empty 0) none) :=
      .element (by decide) (by simp) (by simp) .nil (by simp)
    refine List.forall_mem_cons.2 ⟨.element (by decide) ?_ (by decide) (by decide) ?_, ?_⟩
    · exact List.forall_mem_singleton.2 ⟨by decide, by rintro _ ⟨⟩; exact hvalue⟩
    · exact List.forall_mem_cons.2 ⟨.text htext, List.forall_mem_singleton.2 hbreak⟩
    · exact List.forall_mem_singleton.2 (.comment hcomment)
  apart := by decide

theorem round_trip_preserves_shapes_note :
    PlainForest note ∧ ∃ markup, toMarkup? (ofMarkup ⟨4, false⟩ note) = some markup ∧
      shapes (Markup.parse markup) = shapes note :=
  ⟨plainForest_note, round_trip_preserves_shapes plainForest_note (Or.inr (by decide))⟩

end TemplateProjection.Outline
