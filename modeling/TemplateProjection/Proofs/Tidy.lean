import TemplateProjection.Markup.Printer
import TemplateProjection.Proofs.Blocks

/-!
Forests without the spans they were read at, and without what printing drops: blank texts, and the
blanks around the lines of the others.
-/
namespace TemplateProjection.Markup

variable {t t' : Text} {nodes nodes' : List Node}

def Attribute.bare (a : Attribute) : Attribute :=
  ⟨a.name, .empty 0, a.value.map fun v => ⟨v.text, .empty 0⟩, .empty 0⟩

def OpenTag.bare (tag : OpenTag) : OpenTag :=
  ⟨tag.name, tag.attributes.map Attribute.bare, tag.selfClosing, .empty 0⟩

theorem OpenTag.name_of_bare_eq {tag tag' : OpenTag} (h : tag.bare = tag'.bare) :
    tag.name = tag'.name :=
  show tag.bare.name = tag'.bare.name by rw [h]

theorem OpenTag.selfClosing_of_bare_eq {tag tag' : OpenTag} (h : tag.bare = tag'.bare) :
    tag.selfClosing = tag'.selfClosing :=
  show tag.bare.selfClosing = tag'.bare.selfClosing by rw [h]

theorem OpenTag.bare_bare (tag : OpenTag) : tag.bare.bare = tag.bare := by
  have hattribute : Attribute.bare ∘ Attribute.bare = Attribute.bare := by
    funext a
    cases h : a.value with
    | none => simp [Attribute.bare, h]
    | some v => simp [Attribute.bare, h]
  simp only [OpenTag.bare, List.map_map, hattribute]

mutual

/-- The node without its spans. -/
def Node.bare : Node → Node
  | .element tag children _ _ => .element tag.bare (bareAll children) (.empty 0) none
  | .text t _ => .text t (.empty 0)
  | .comment data _ => .comment data (.empty 0)
  | .declaration t _ => .declaration t (.empty 0)

def bareAll : List Node → List Node
  | [] => []
  | node :: nodes => node.bare :: bareAll nodes

end

@[simp]
theorem bareAll_append (nodes nodes' : List Node) :
    bareAll (nodes ++ nodes') = bareAll nodes ++ bareAll nodes' := by
  induction nodes with
  | nil => rfl
  | cons node nodes ih => simp [bareAll, ih]

mutual

/-- The node without its spans, a text as its solid lines. Blank text is left out. -/
def Node.tidy? : Node → Option Node
  | .element tag children _ _ => some (.element tag.bare (tidyAll children) (.empty 0) none)
  | .text t _ => if t.solidLines.isEmpty then none else some (.text t.tidy (.empty 0))
  | .comment data _ => some (.comment data (.empty 0))
  | .declaration t _ => some (.declaration t (.empty 0))

def tidyAll : List Node → List Node
  | [] => []
  | node :: nodes => node.tidy?.toList ++ tidyAll nodes

end

@[simp]
theorem tidyAll_append (nodes nodes' : List Node) :
    tidyAll (nodes ++ nodes') = tidyAll nodes ++ tidyAll nodes' := by
  induction nodes with
  | nil => rfl
  | cons node nodes ih => simp [tidyAll, ih]

/-- Of a text only the solid lines count. -/
theorem Node.tidy?_text_congr (span span' : Span) (h : t.solidLines = t'.solidLines) :
    (Node.text t span).tidy? = (Node.text t' span').tidy? := by
  simp only [Node.tidy?, Text.tidy, h]

mutual

theorem Node.tidy?_bare : ∀ node : Node, node.bare.tidy? = node.tidy?
  | .element tag children _ _ => by
    simp only [Node.bare, Node.tidy?, OpenTag.bare_bare, tidyAll_bareAll children]
  | .text _ _ => rfl
  | .comment _ _ => rfl
  | .declaration _ _ => rfl

theorem tidyAll_bareAll : ∀ nodes : List Node, tidyAll (bareAll nodes) = tidyAll nodes
  | [] => rfl
  | node :: nodes => by
    simp only [bareAll, tidyAll, Node.tidy?_bare node, tidyAll_bareAll nodes]

end

/-! ## Printing -/

theorem Attribute.render_bare (a : Attribute) : a.bare.render = a.render := by
  cases h : a.value with
  | none => simp [Attribute.render, Attribute.bare, h]
  | some v => simp [Attribute.render, Attribute.bare, h]

theorem OpenTag.renderOpen_bare (tag : OpenTag) : tag.bare.renderOpen = tag.renderOpen := by
  simp only [OpenTag.renderOpen, OpenTag.bare, List.flatMap_map, Attribute.render_bare]

theorem Node.isContent_text (t : Text) (span : Span) :
    (Node.text t span).isContent = !t.solidLines.isEmpty := by
  have hiff : t.trim = [] ↔ t.solidLines = [] :=
    Text.trim_eq_nil_iff.trans Text.solidLines_eq_nil_iff.symm
  rw [Node.isContent, Bool.eq_iff_iff]
  simpa using not_congr hiff

theorem Node.any_isContent_tidy? (node : Node) :
    node.tidy?.toList.any Node.isContent = node.isContent := by
  cases node with
  | element tag children span endName => rfl
  | text t span =>
    rw [Node.tidy?, Node.isContent_text]
    cases hlines : t.solidLines.isEmpty with
    | true => rfl
    | false => simp [Node.isContent_text, Text.solidLines_tidy, hlines]
  | comment data span => rfl
  | declaration t span => rfl

theorem any_isContent_tidyAll (nodes : List Node) :
    (tidyAll nodes).any Node.isContent = nodes.any Node.isContent := by
  induction nodes with
  | nil => rfl
  | cons node nodes ih => rw [tidyAll, List.any_append, List.any_cons, node.any_isContent_tidy?, ih]

theorem printAllLines_append (depth : Nat) (nodes nodes' : List Node) :
    printAllLines depth (nodes ++ nodes') =
      printAllLines depth nodes ++ printAllLines depth nodes' := by
  induction nodes with
  | nil => rfl
  | cons node nodes ih => simp [printAllLines, ih]

theorem Node.printLines_text (depth : Nat) (t : Text) (span : Span) :
    (Node.text t span).printLines depth = t.solidLines.map (indentation depth ++ ·) := by
  rw [Node.printLines, Text.filter_trim_lines]

mutual

theorem Node.printLines_tidy? (depth : Nat) :
    ∀ node : Node, printAllLines depth node.tidy?.toList = node.printLines depth
  | .element tag children _ _ => by
    have hname : tag.bare.name = tag.name := rfl
    have hclosing : tag.bare.selfClosing = tag.selfClosing := rfl
    simp only [Node.tidy?, Option.toList_some, printAllLines, List.append_nil, Node.printLines,
      OpenTag.renderOpen_bare, any_isContent_tidyAll, printAllLines_tidyAll (depth + 1) children,
      hname, hclosing]
  | .text t _ => by
    rw [Node.tidy?, Node.printLines_text]
    cases hlines : t.solidLines.isEmpty with
    | true => simp [printAllLines, List.isEmpty_iff.1 hlines]
    | false => simp [printAllLines, Node.printLines_text, Text.solidLines_tidy]
  | .comment _ _ => by
    simp only [Node.tidy?, Option.toList_some, printAllLines, List.append_nil, Node.printLines]
  | .declaration _ _ => by
    simp only [Node.tidy?, Option.toList_some, printAllLines, List.append_nil, Node.printLines]

theorem printAllLines_tidyAll (depth : Nat) :
    ∀ nodes : List Node, printAllLines depth (tidyAll nodes) = printAllLines depth nodes
  | [] => rfl
  | node :: nodes => by
    rw [tidyAll, printAllLines_append, Node.printLines_tidy? depth node,
      printAllLines_tidyAll depth nodes, printAllLines]

end

/-- What is left of a forest determines how it is printed. -/
theorem prettyPrint_congr (h : tidyAll nodes = tidyAll nodes') :
    prettyPrint nodes = prettyPrint nodes' := by
  rw [prettyPrint, prettyPrint, ← printAllLines_tidyAll, h, printAllLines_tidyAll]

theorem Attribute.bare_normalize (a : Attribute) : a.normalize.bare = a.bare.normalize := by
  cases h : a.value with
  | none => simp [Attribute.normalize, Attribute.bare, h]
  | some v => simp [Attribute.normalize, Attribute.bare, h]

mutual

theorem Node.bare_normalize : ∀ node : Node, node.normalize.bare = node.bare.normalize
  | .element tag children _ _ => by
    have hattributes :
        Attribute.bare ∘ Attribute.normalize = Attribute.normalize ∘ Attribute.bare :=
      funext Attribute.bare_normalize
    simp only [Node.bare, Node.normalize, OpenTag.bare, OpenTag.normalize, List.map_map,
      hattributes, bareAll_normalizeAll children]
  | .text _ _ => rfl
  | .comment _ _ => rfl
  | .declaration _ _ => rfl

theorem bareAll_normalizeAll :
    ∀ nodes : List Node, bareAll (normalizeAll nodes) = normalizeAll (bareAll nodes)
  | [] => rfl
  | node :: nodes => by
    simp only [bareAll, normalizeAll, Node.bare_normalize node, bareAll_normalizeAll nodes]

end

/-- How a tree is printed does not depend on where it was read. -/
theorem prettyPrint_normalizeAll_congr (h : bareAll nodes = bareAll nodes') :
    prettyPrint (normalizeAll nodes) = prettyPrint (normalizeAll nodes') := by
  apply prettyPrint_congr
  rw [← tidyAll_bareAll, bareAll_normalizeAll, h, ← bareAll_normalizeAll, tidyAll_bareAll]

end TemplateProjection.Markup
