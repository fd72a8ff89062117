import TemplateProjection.Proofs.TidyText

/-! Texts that spell out shapes. Blanks between tags and at the ends of the text do not matter. -/
namespace TemplateProjection.Markup

variable {t : Text} {nodes : List Node} {ss : List Shape}

/-- The text spells out the shapes. -/
def Spells (t : Text) (ss : List Shape) : Prop := ∃ nodes, Written t nodes ∧ shapes nodes = ss

theorem Conveys.spells (h : Conveys t nodes) : Spells t (shapes nodes) := by
  obtain ⟨found, hwritten, htidy⟩ := h
  refine ⟨found, hwritten, ?_⟩
  rw [← shapes_tidyAll, htidy, shapes_tidyAll]

theorem isText_head_tidyAll (h : ∀ s ∈ (shapes nodes).head?, s.isText = false) :
    ∀ node ∈ (tidyAll nodes).head?, node.isText = false := by
  induction nodes with
  | nil => simp [tidyAll]
  | cons node nodes ih =>
    cases node with
    | element tag children span endName => rintro _ ⟨⟩; rfl
    | text t span =>
      by_cases hlines : t.solidLines = []
      · have hwords := Text.solidLines_eq_nil_iff.1 hlines
        simp only [shapes, Node.shape?, hwords] at h
        simp only [tidyAll, Node.tidy?, hlines]
        exact ih h
      · have hwords : t.words ≠ [] := fun hwords => hlines (Text.solidLines_eq_nil_iff.2 hwords)
        rw [shapes, Node.shape?, if_neg (by simpa using hwords)] at h
        exact absurd (h _ rfl) (by simp [Shape.isText])
    | comment data span => rintro _ ⟨⟩; rfl
    | declaration t span => rintro _ ⟨⟩; rfl

namespace Spells

theorem conveys (h : Spells t ss) : ∃ nodes, Conveys t nodes ∧ shapes nodes = ss := by
  obtain ⟨nodes, hwritten, hshapes⟩ := h
  exact ⟨nodes, ⟨nodes, hwritten, rfl⟩, hshapes⟩

theorem shapes_parse (h : Spells t ss) : shapes (parse t) = ss := by
  obtain ⟨nodes, hconveys, rfl⟩ := h.conveys
  rw [← shapes_tidyAll, hconveys.tidyAll_parse, shapes_tidyAll]

theorem blank (h : ∀ c ∈ t, isBlank c) : Spells t [] := (Conveys.blank h).spells

theorem atom {node : Node} {rest : Text} (ht : Atom t node) (h : Spells rest ss) :
    Spells (t ++ rest) (node.shape?.toList ++ ss) := by
  obtain ⟨nodes, hconveys, rfl⟩ := h.conveys
  exact (hconveys.atom ht).spells

theorem element {tag : OpenTag} {inner rest : Text} {children : List Shape} (htag : tag.Printable)
    (hopen : (tag.selfClosing || isVoid tag.name) = false) (hinner : Spells inner children)
    (h : Spells rest ss) :
    Spells (tag.render ++ (inner ++ (renderEndTag tag.name ++ rest)))
      (.element tag.name (tag.attributes.map Attribute.shape) children :: ss) := by
  obtain ⟨nodes, hconveys, rfl⟩ := h.conveys
  obtain ⟨inside, hinside, rfl⟩ := hinner.conveys
  exact (Conveys.element (.empty 0) none htag hopen hinside hconveys).spells

theorem blank_append {w : Text} (hw : ∀ c ∈ w, isBlank c) (h : Spells t ss) :
    Spells (w ++ t) ss := by
  obtain ⟨nodes, hconveys, rfl⟩ := h.conveys
  exact (hconveys.blank_append hw).spells

/-- Text in front of something else is a text of its own. -/
theorem text_append {text : Text} (hlt : '<' ∉ text) (hwords : text.words ≠ []) (h : Spells t ss)
    (hss : ∀ s ∈ ss.head?, s.isText = false) : Spells (text ++ t) (.text text.words :: ss) := by
  obtain ⟨nodes, hconveys, rfl⟩ := h.conveys
  have htext := hconveys.text_append (.empty 0) hlt (isText_head_tidyAll hss)
  have hshape : (Node.text text (.empty 0)).shape? = some (.text text.words) := by
    rw [Node.shape?, if_neg (by simpa using hwords)]
  have hspells := htext.spells
  rwa [shapes, hshape] at hspells

theorem trim (h : Spells t ss) : Spells t.trim ss := by
  obtain ⟨nodes, hconveys, rfl⟩ := h.conveys
  exact hconveys.trim.spells

end Spells

end TemplateProjection.Markup
