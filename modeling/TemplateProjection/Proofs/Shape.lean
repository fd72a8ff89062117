import TemplateProjection.Proofs.Tidy

/-! What a markup tree says apart from its layout. -/
namespace TemplateProjection.Markup

/-- What a node says when its layout is ignored. -/
inductive Shape where
  | element (name : Text) (attributes : List (Text × Text)) (children : List Shape)
  | text (words : List Text)
  | comment (lines : List Text)

def Shape.isText : Shape → Bool
  | .text _ => true
  | _ => false

/-- The name and the value; no value counts as an empty one. -/
def Attribute.shape (a : Attribute) : Text × Text :=
  (a.name, Text.trim ((a.value.map (·.text)).getD []))

mutual

/-- Blank text and declarations have no shape. -/
def Node.shape? : Node → Option Shape
  | .element tag children _ _ =>
    some (.element tag.name (tag.attributes.map Attribute.shape) (shapes children))
  | .text t _ => if t.words.isEmpty then none else some (.text t.words)
  | .comment data _ => some (.comment data.solidLines)
  | .declaration _ _ => none

def shapes : List Node → List Shape
  | [] => []
  | node :: nodes => node.shape?.toList ++ shapes nodes

end

@[simp]
theorem shapes_append (nodes nodes' : List Node) :
    shapes (nodes ++ nodes') = shapes nodes ++ shapes nodes' := by
  induction nodes with
  | nil => rfl
  | cons node nodes ih => simp [shapes, ih]

theorem Attribute.shape_bare (a : Attribute) : a.bare.shape = a.shape := by
  cases h : a.value with
  | none => simp [Attribute.shape, Attribute.bare, h]
  | some v => simp [Attribute.shape, Attribute.bare, h]

mutual

theorem Node.shapes_tidy? : ∀ node : Node, shapes node.tidy?.toList = node.shape?.toList
  | .element tag children _ _ => by
    have hattributes : Attribute.shape ∘ Attribute.bare = Attribute.shape :=
      funext Attribute.shape_bare
    simp only [Node.tidy?, Option.toList_some, shapes, Node.shape?, OpenTag.bare, List.map_map,
      hattributes, shapes_tidyAll children, List.append_nil]
  | .text t _ => by
    rw [Node.tidy?]
    cases hlines : t.solidLines.isEmpty with
    | true =>
      have hwords := Text.solidLines_eq_nil_iff.1 (List.isEmpty_iff.1 hlines)
      simp [shapes, Node.shape?, hwords]
    | false => simp [shapes, Node.shape?, Text.words_tidy]
  | .comment _ _ => by
    simp only [Node.tidy?, Option.toList_some, shapes, Node.shape?, List.append_nil]
  | .declaration _ _ => by
    simp only [Node.tidy?, Option.toList_some, shapes, Node.shape?, List.append_nil]

theorem shapes_tidyAll : ∀ nodes : List Node, shapes (tidyAll nodes) = shapes nodes
  | [] => rfl
  | node :: nodes => by
    rw [tidyAll, shapes_append, Node.shapes_tidy? node, shapes_tidyAll nodes, shapes]

end

end TemplateProjection.Markup
