import TemplateProjection.Proofs.Lists
import TemplateProjection.Proofs.Regrouping

/-!
What becomes of the attributes of markup: each one that is not structural is a property of exactly
one element of the template, unless its element stands for its children only.
-/
namespace TemplateProjection

theorem Span.InOrder.nodup {start stop : Nat} {spans : List Span} (h : InOrder start spans stop)
    (hfilled : ∀ span ∈ spans, 0 < span.length) : spans.Nodup := by
  refine (List.Pairwise.and_mem.1 h.pairwise).imp fun {span next} hmem => ?_
  rintro rfl
  have hlength := hfilled span hmem.1
  have hle : span.start + span.length ≤ span.start := hmem.2.2
  omega

namespace Markup

variable {source : Text} {start stop : Nat} {nodes : List Node}

/-- The attributes of all elements in order, each with its opening tag. -/
def attributesOf (nodes : List Node) : List (OpenTag × Attribute) :=
  (elementsOf nodes).flatMap fun e => e.1.attributes.map (Prod.mk e.1)

theorem elementsOf_cons (node : Node) (nodes : List Node) :
    elementsOf (node :: nodes) = elementsOf [node] ++ elementsOf nodes := by
  simp [elementsOf, preorderOf]

theorem elementsOf_element (tag : OpenTag) (children : List Node) (span : Span)
    (endName : Option Span) :
    elementsOf [.element tag children span endName] = (tag, span) :: elementsOf children := by
  simp [elementsOf, preorderOf, Node.preorder, Node.element?]

theorem attributesOf_cons (node : Node) (nodes : List Node) :
    attributesOf (node :: nodes) = attributesOf [node] ++ attributesOf nodes := by
  rw [attributesOf, elementsOf_cons, List.flatMap_append]
  rfl

theorem attributesOf_element (tag : OpenTag) (children : List Node) (span : Span)
    (endName : Option Span) :
    attributesOf [.element tag children span endName] =
      tag.attributes.map (Prod.mk tag) ++ attributesOf children := by
  rw [attributesOf, elementsOf_element, List.flatMap_cons]
  rfl

theorem mem_elementsOf {e : OpenTag × Span} :
    e ∈ elementsOf nodes ↔ ∃ node ∈ nodes, e ∈ elementsOf [node] := by
  induction nodes with
  | nil => simp [elementsOf, preorderOf]
  | cons node nodes ih =>
    rw [elementsOf_cons, List.mem_append, ih]
    simp

theorem Node.TagsStandIn.elements {node : Node} (h : node.TagsStandIn source) :
    ∀ e ∈ elementsOf [node], e.1.StandsIn source := by
  induction h with
  | element htag _ ih =>
    rw [elementsOf_element]
    refine List.forall_mem_cons.2 ⟨htag, fun e he => ?_⟩
    obtain ⟨child, hchild, he⟩ := mem_elementsOf.1 he
    exact ih child hchild e he
  | text => simp [elementsOf, preorderOf, Node.preorder, Node.element?]
  | comment => simp [elementsOf, preorderOf, Node.preorder, Node.element?]
  | declaration => simp [elementsOf, preorderOf, Node.preorder, Node.element?]

theorem attributesOf_inOrder_of_forall
    (h : ∀ node ∈ nodes, Span.InOrder node.span.start
      ((attributesOf [node]).map (·.2.span)) node.span.stop)
    (hinOrder : Span.InOrder start (nodes.map Node.span) stop) :
    Span.InOrder start ((attributesOf nodes).map (·.2.span)) stop := by
  induction nodes generalizing start with
  | nil => exact hinOrder
  | cons node nodes ih =>
    obtain ⟨hnode, hnodes⟩ := List.forall_mem_cons.1 h
    rw [attributesOf_cons, List.map_append, Span.inOrder_append]
    exact ⟨_, hnode.widen hinOrder.1, ih hnodes hinOrder.2⟩

/-- In document order the attributes stand one behind another: those of an opening tag inside it,
those of the children behind it. -/
theorem Node.Nested.attributes_inOrder {node : Node} (h : node.Nested)
    (htags : node.TagsStandIn source) :
    Span.InOrder node.span.start ((attributesOf [node]).map (·.2.span)) node.span.stop := by
  induction h with
  | @element tag children span endName hspans _ ih =>
    cases htags with
    | element htag htags =>
      have hchildren := attributesOf_inOrder_of_forall
        (fun child hchild => ih child hchild (htags child hchild)) hspans.inOrder
      have htagOrder := htag.inOrder
      have hstart : span.start ≤ tag.span.start + 1 + tag.name.byteLength := by
        have := hspans.openTag.1
        omega
      rw [attributesOf_element, List.map_append, List.map_map, Span.inOrder_append]
      exact ⟨_, htagOrder.widen hstart, hchildren⟩
  | text t span => exact span.start_le_stop
  | comment data span => exact span.start_le_stop
  | declaration t span => exact span.start_le_stop

/-- No two attributes of a text stand at the same place. -/
theorem attributesOf_parse_nodup (source : Text) :
    ((attributesOf (parse source)).map (·.2.span)).Nodup := by
  have hlaid := parse_laid source
  have hinOrder := attributesOf_inOrder_of_forall (fun node hnode =>
    (hlaid.nested node hnode).attributes_inOrder (tagsStandIn_parse source node hnode))
    hlaid.inOrder
  refine hinOrder.nodup fun span hspan => ?_
  obtain ⟨⟨tag, a⟩, hmem, rfl⟩ := List.mem_map.1 hspan
  obtain ⟨e, he, ha⟩ := List.mem_flatMap.1 hmem
  obtain ⟨a, ha, heq⟩ := List.mem_map.1 ha
  cases heq
  obtain ⟨node, hnode, he⟩ := mem_elementsOf.1 he
  have htag := (tagsStandIn_parse source node hnode).elements e he
  exact Template.length_pos_of_encloses (htag.readIn.attributes a ha) (htag.encloses a ha)

end Markup

def Landmark.properties? : Landmark → Option (List Span)
  | .element _ properties => some properties
  | _ => none

namespace Template

variable {source : Text}

/-- The attribute becomes a property. -/
def isKept (tag : Markup.OpenTag) (a : Markup.Attribute) : Bool :=
  !dissolves tag && !isStructural a

theorem filter_isKept (tag : Markup.OpenTag) :
    ((tag.attributes.map (Prod.mk tag)).filter fun p => isKept p.1 p.2).map (·.2.span) =
      if dissolves tag then [] else (tag.attributes.filter (!isStructural ·)).map (·.span) := by
  rw [List.filter_map, List.map_map]
  cases h : dissolves tag with
  | true =>
    have hnone : tag.attributes.filter ((fun p => isKept p.1 p.2) ∘ Prod.mk tag) = [] := by
      simp [isKept, h]
    rw [hnone]
    rfl
  | false =>
    have hkept : (fun p => isKept p.1 p.2) ∘ Prod.mk tag = (!isStructural ·) := by
      funext a
      simp [isKept, h]
    rw [hkept]
    rfl

theorem filterMap_properties?_markup (nodes : List Markup.Node) :
    ((Markup.landmarksOf nodes).filterMap Landmark.properties?).flatten =
      ((Markup.attributesOf nodes).filter fun p => isKept p.1 p.2).map (·.2.span) := by
  rw [Markup.landmarksOf, Markup.attributesOf, Markup.elementsOf, List.filterMap_filterMap]
  induction Markup.preorderOf nodes with
  | nil => rfl
  | cons node rest ih =>
    cases node with
    | element tag children span endName =>
      have hrest := filter_isKept tag
      rw [List.filterMap_cons, List.filterMap_cons]
      simp only [Markup.Node.element?, List.flatMap_cons, List.filter_append, List.map_append]
      rw [hrest, ← ih, Markup.Node.landmark?]
      cases dissolves tag <;> rfl
    | text => exact ih
    | comment => exact ih
    | declaration => exact ih

def Node.properties : Node → List Property
  | .element head _ => head.properties
  | _ => []

/-- The properties of all elements of a template in order. -/
def propertiesOf (nodes : List Node) : List Property := (preorderOf nodes).flatMap Node.properties

theorem map_span_propertiesOf (nodes : List Node) :
    (propertiesOf nodes).map (·.loc.span) =
      ((landmarksOf nodes).filterMap Landmark.properties?).flatten := by
  rw [propertiesOf, landmarksOf]
  induction preorderOf nodes with
  | nil => rfl
  | cons node rest ih =>
    rw [List.flatMap_cons, List.map_append, ih]
    cases node <;> rfl

/-- An attribute that is not structural is a property of exactly one element of the template, unless
it stands in a `template` with a structural directive: then it is a property of none. -/
theorem attribute_kept_once_unless_dissolved {tag : Markup.OpenTag} {span : Span}
    {a : Markup.Attribute} (helement : (tag, span) ∈ Markup.elementsOf (Markup.parse source))
    (ha : a ∈ tag.attributes) (hstructural : isStructural a = false) :
    ((propertiesOf (parse source)).map (·.loc.span)).count a.span =
      if dissolves tag then 0 else 1 := by
  have hmem : (tag, a) ∈ Markup.attributesOf (Markup.parse source) :=
    List.mem_flatMap.2 ⟨(tag, span), helement, List.mem_map_of_mem ha⟩
  have hcount := count_map_filter (Markup.attributesOf_parse_nodup source) hmem
    fun p => isKept p.1 p.2
  rw [map_span_propertiesOf, landmarksOf_parse, Landmark.filterMap_lostIn _ fun _ _ => rfl,
    filterMap_properties?_markup, hcount, isKept, hstructural]
  cases dissolves tag <;> rfl

/-- In a `template` that is dissolved, the attribute of an element is still kept. -/
theorem attribute_kept_once_unless_dissolved_inner :
    let source := "<template v-if=\"a\" #b=\"c\"><p :x=\"y\"/></template>".toList
    let a : Markup.Attribute := ⟨":x".toList, ⟨29, 2⟩, some ⟨"y".toList, ⟨33, 1⟩⟩, ⟨29, 6⟩⟩
    let tag : Markup.OpenTag := ⟨"p".toList, [a], true, ⟨26, 11⟩⟩
    (tag, ⟨26, 11⟩) ∈ Markup.elementsOf (Markup.parse source) ∧ isStructural a = false ∧
      ((propertiesOf (parse source)).map (·.loc.span)).count a.span = 1 := by
  intro source a tag
  have helement : (tag, ⟨26, 11⟩) ∈ Markup.elementsOf (Markup.parse source) := by decide +kernel
  have hstructural : isStructural a = false := by decide +kernel
  exact ⟨helement, hstructural,
    attribute_kept_once_unless_dissolved helement List.mem_cons_self hstructural⟩

/-- A slot binding on a conditional `template` is lost. -/
theorem slot_binding_lost_with_template :
    let source := "<template v-if=\"a\" #b=\"c\">\x7b\x7b c \x7d\x7d</template>".toList
    ¬ ∀ element ∈ Markup.elementsOf (Markup.parse source), ∀ a ∈ element.1.attributes,
      isStructural a = false →
        ((propertiesOf (parse source)).map (·.loc.span)).count a.span = 1 := by
  decide +kernel

end Template

end TemplateProjection
