import TemplateProjection.Outline.OfMarkup
import TemplateProjection.Outline.Item
import TemplateProjection.Proofs.Plain

/-! The items by which an outline says a plain forest. They have the shapes of the forest. -/
namespace TemplateProjection.Outline

open Markup (isElementName isAttributeName isVoid PlainValue PlainText PlainComment TextsApart)

/-- The data that a comment has when its lines have been read from an outline. -/
def commentItemData (data : Text) : Text :=
  if data.contains '\n' then data.block else Text.trimEnd (' ' :: data.trim)

def attributeItem (a : Markup.Attribute) : Attribute :=
  ⟨a.name, some (Text.trim ((a.value.map (·.text)).getD [])), false⟩

mutual

/-- What the lines of a node are read as. -/
def itemsOf : Markup.Node → List Item
  | .element tag children _ _ =>
    [.element ⟨tag.name, tag.attributes.map attributeItem, false⟩ (itemsOfAll children)]
  | .text t _ => if t.trim.isEmpty then [] else [.text t.trim.block]
  | .comment data _ => [.comment (commentItemData data)]
  | .declaration _ _ => []

def itemsOfAll : List Markup.Node → List Item
  | [] => []
  | node :: nodes => itemsOf node ++ itemsOfAll nodes

end

def Attribute.toMarkup (spell : Text → Text) (a : Attribute) : Markup.Attribute :=
  ⟨a.name, .empty 0, a.value.map fun v => ⟨spell v, .empty 0⟩, .empty 0⟩

def Tag.toMarkup (spell : Text → Text) (tag : Tag) : Markup.OpenTag :=
  ⟨tag.name, tag.attributes.map (·.toMarkup spell), tag.selfClosing, .empty 0⟩

mutual

/-- The node that an item is rendered as, with `spell` for the spelling of attribute values. -/
def Item.toNode (spell : Text → Text) : Item → Markup.Node
  | .element tag children => .element (tag.toMarkup spell) (toNodes spell children) (.empty 0) none
  | .text t => .text t (.empty 0)
  | .comment data => .comment (data ++ [' ']) (.empty 0)
  | .markup t => .declaration t (.empty 0)

def toNodes (spell : Text → Text) : List Item → List Markup.Node
  | [] => []
  | item :: items => item.toNode spell :: toNodes spell items

end

structure Attribute.Settled (a : Attribute) : Prop where
  name : isAttributeName a.name
  value : ∃ v, a.value = some v ∧ PlainValue v
  verbatim : a.verbatim = false

/-- No two texts are adjacent. -/
def ItemsApart (items : List Item) : Prop :=
  items.IsChain fun item next => ¬ (item.isText ∧ next.isText)

/-- An item that is written and read without loss. -/
inductive Item.Settled : Item → Prop
  | element {tag : Tag} {children : List Item} (hname : isElementName tag.name)
      (hattributes : ∀ a ∈ tag.attributes, a.Settled) (hopen : tag.selfClosing = false)
      (hleaf : isVoid tag.name → children = []) (hapart : ItemsApart children)
      (hchildren : ∀ child ∈ children, child.Settled) : Settled (.element tag children)
  | text {t : Text} (hlt : '<' ∉ t) (hamp : '&' ∉ t) (hwords : t.words ≠ []) : Settled (.text t)
  | comment {data : Text} (hamp : '&' ∉ data) (hclose : ¬ "-->".toList <:+: data) :
      Settled (.comment data)

/-! ## The items of a plain forest -/

theorem PlainValue.of_infix {u v : Text} (hv : PlainValue v) (h : u <:+: v) : PlainValue u where
  printable c hc := hv.printable c (h.subset hc)
  backslash hc := hv.backslash (h.subset hc)
  quotes := by
    rcases hv.quotes with hnot | hnot
    · exact Or.inl fun hc => hnot (h.subset hc)
    · exact Or.inr fun hc => hnot (h.subset hc)
  reference hin := hv.reference (hin.trans h)

theorem plainValue_nil : PlainValue [] :=
  ⟨by simp, List.not_mem_nil, Or.inl List.not_mem_nil, by decide⟩

theorem attributeItem_settled {a : Markup.Attribute} (h : a.Plain) : (attributeItem a).Settled where
  name := h.name
  value := by
    have hplain : PlainValue ((a.value.map (·.text)).getD []) := by
      cases hv : a.value with
      | none => exact plainValue_nil
      | some v => exact h.value v hv
    exact ⟨_, rfl, PlainValue.of_infix hplain (Text.trim_isInfix _)⟩
  verbatim := rfl

theorem block_settled {t : Text} (h : PlainText t) (ht : t.trim ≠ []) :
    Item.Settled (.text t.trim.block) := by
  have hmem : ∀ c ∈ t.trim.block, c ≠ '\n' → c ∈ t :=
    fun c hc hfeed => (Text.trim_isInfix t).subset (Text.mem_of_mem_block hc hfeed)
  have hwords : t.trim.block.words ≠ [] := by
    rw [Text.words_block, Text.words_trim]
    exact fun hwords => ht (Text.trim_eq_nil_iff.2 hwords)
  exact .text (fun hlt => h.lt (hmem _ hlt (by decide)))
    (fun hamp => h.amp (hmem _ hamp (by decide))) hwords

theorem comment_settled {data : Text} (h : PlainComment data) :
    Item.Settled (.comment (commentItemData data)) := by
  unfold commentItemData
  split
  · refine .comment (fun hamp => h.amp (Text.mem_of_mem_block hamp (by decide))) fun hclose => ?_
    exact h.close (Text.infix_of_infix_block (by decide) (by decide) hclose)
  · have hin : (Text.trimEnd (' ' :: data.trim)) <:+: ' ' :: data.trim :=
      (Text.trimEnd_isPrefix _).isInfix
    have htrim := Text.trim_isInfix data
    refine .comment (fun hamp => ?_) fun hclose => ?_
    · rcases List.mem_cons.1 (hin.subset hamp) with heq | hmem
      · exact absurd heq (by decide)
      · exact h.amp (htrim.subset hmem)
    · rcases List.infix_cons_iff.1 (hclose.trans hin) with hstart | hinside
      · obtain ⟨u, hu⟩ := hstart
        exact absurd (List.cons.inj hu).1 (by decide)
      · exact h.close (hinside.trans htrim)

/-- Each node that has content becomes one item, a text if the node is one. -/
theorem itemsOf_eq {node : Markup.Node} (h : node.Plain) :
    if node.isContent then ∃ item, itemsOf node = [item] ∧ item.isText = node.isText
    else itemsOf node = [] := by
  cases h with
  | element => exact ⟨_, rfl, rfl⟩
  | @text t span h =>
    cases hempty : t.trim.isEmpty with
    | false => simp [itemsOf, Markup.Node.isContent, Item.isText, Markup.Node.isText, hempty]
    | true => simp [itemsOf, Markup.Node.isContent, hempty]
  | comment => exact ⟨_, rfl, rfl⟩

theorem itemsApart_of_textsApart {nodes : List Markup.Node} (h : ∀ node ∈ nodes, node.Plain)
    (hapart : TextsApart nodes) :
    ItemsApart (itemsOfAll nodes) ∧
      (itemsOfAll nodes).head?.map Item.isText =
        (nodes.filter Markup.Node.isContent).head?.map Markup.Node.isText := by
  -- the first item is carried along, for blank texts may stand before the node that it comes from
  induction nodes with
  | nil => exact ⟨.nil, rfl⟩
  | cons node nodes ih =>
    obtain ⟨hnode, hnodes⟩ := List.forall_mem_cons.1 h
    have hitems := itemsOf_eq hnode
    by_cases hcontent : node.isContent
    · rw [if_pos hcontent] at hitems
      obtain ⟨item, hitem, htext⟩ := hitems
      rw [TextsApart, List.filter_cons_of_pos hcontent, List.isChain_cons] at hapart
      obtain ⟨hrest, hhead⟩ := ih hnodes hapart.2
      rw [itemsOfAll, hitem, List.filter_cons_of_pos hcontent]
      refine ⟨List.isChain_cons.2 ⟨?_, hrest⟩, by simp [htext]⟩
      intro next hnext hboth
      have hnext : (itemsOfAll nodes).head? = some next := hnext
      rw [hnext] at hhead
      obtain ⟨y, hy, hyText⟩ := Option.map_eq_some_iff.1 hhead.symm
      exact hapart.1 y hy ⟨htext ▸ hboth.1, hyText ▸ hboth.2⟩
    · rw [if_neg hcontent] at hitems
      rw [TextsApart, List.filter_cons_of_neg hcontent] at hapart
      rw [itemsOfAll, hitems, List.filter_cons_of_neg hcontent]
      exact ih hnodes hapart

mutual

theorem itemsOf_settled : ∀ node : Markup.Node, node.Plain → ∀ item ∈ itemsOf node, item.Settled
  | .element tag children _ _, h => by
    cases h with
    | element hname hattributes hleaf hapart hchildren =>
      intro item hitem
      rw [List.mem_singleton.1 hitem]
      refine .element hname ?_ rfl ?_ (itemsApart_of_textsApart hchildren hapart).1
        (itemsOfAll_settled children hchildren)
      · intro a ha
        obtain ⟨b, hb, rfl⟩ := List.mem_map.1 ha
        exact attributeItem_settled (hattributes b hb)
      · intro hvoid
        rw [hleaf (by simp [hvoid]), itemsOfAll]
  | .text t _, h => by
    cases h with
    | text h =>
      intro item hitem
      simp only [itemsOf] at hitem
      split at hitem
      · cases hitem
      · next hempty =>
        rw [List.mem_singleton.1 hitem]
        exact block_settled h (by simpa using hempty)
  | .comment data _, h => by
    cases h with
    | comment h =>
      intro item hitem
      rw [List.mem_singleton.1 hitem]
      exact comment_settled h
  | .declaration _ _, h => by cases h

theorem itemsOfAll_settled : ∀ nodes : List Markup.Node, (∀ node ∈ nodes, node.Plain) →
    ∀ item ∈ itemsOfAll nodes, item.Settled
  | [], _ => by
    intro item hitem
    cases hitem
  | node :: nodes, h => by
    obtain ⟨hnode, hnodes⟩ := List.forall_mem_cons.1 h
    intro item hitem
    rcases List.mem_append.1 hitem with hitem | hitem
    · exact itemsOf_settled node hnode item hitem
    · exact itemsOfAll_settled nodes hnodes item hitem

end

theorem toNodes_append (spell : Text → Text) (items items' : List Item) :
    toNodes spell (items ++ items') = toNodes spell items ++ toNodes spell items' := by
  induction items with
  | nil => rfl
  | cons item items ih => simp [toNodes, ih]

/-- The lines of a comment are the same after they have been read from an outline. -/
theorem solidLines_commentItemData (data : Text) :
    (commentItemData data ++ [' ']).solidLines = data.solidLines := by
  have hspace : ∀ c ∈ [' '], isBlank c := List.forall_mem_singleton.2 (by decide)
  rw [Text.solidLines_append_blank _ hspace, commentItemData]
  split
  · exact Text.solidLines_block data
  · next hfeed =>
    have hfeed : '\n' ∉ data := by simpa using hfeed
    have htrimmed : '\n' ∉ Text.trimEnd (' ' :: data.trim) := by
      intro hmem
      rcases List.mem_cons.1 ((Text.trimEnd_isPrefix _).subset hmem) with heq | hmem
      · exact absurd heq (by decide)
      · exact Text.feed_not_mem_trim hfeed hmem
    refine Text.solidLines_congr htrimmed hfeed ?_
    calc (Text.trimEnd (' ' :: data.trim)).trim
      _ = Text.trim ([' '] ++ data.trim) := Text.trim_trimEnd _
      _ = data.trim.trim := Text.trim_blank_append hspace _
      _ = data.trim := (Text.trimmed_trim data).trim_eq

mutual

theorem shapes_itemsOf : ∀ node : Markup.Node,
    Markup.shapes (toNodes id (itemsOf node)) = node.shape?.toList
  | .element tag children _ _ => by
    have hattributes : Markup.Attribute.shape ∘ Attribute.toMarkup id ∘ attributeItem =
        Markup.Attribute.shape := by
      funext a
      simp [Markup.Attribute.shape, Attribute.toMarkup, attributeItem,
        (Text.trimmed_trim _).trim_eq]
    simp only [itemsOf, toNodes, Item.toNode, Tag.toMarkup, Markup.shapes, Markup.Node.shape?,
      List.map_map, hattributes, shapes_itemsOfAll children, List.append_nil]
  | .text t span => by
    by_cases hempty : t.trim = []
    · have hwords := Text.trim_eq_nil_iff.1 hempty
      simp [itemsOf, hempty, toNodes, Markup.shapes, Markup.Node.shape?, hwords]
    · have hwords : t.words ≠ [] := fun hwords => hempty (Text.trim_eq_nil_iff.2 hwords)
      simp [itemsOf, hempty, toNodes, Item.toNode, Markup.shapes, Markup.Node.shape?,
        Text.words_block, Text.words_trim, hwords]
  | .comment data _ => by
    simp only [itemsOf, toNodes, Item.toNode, Markup.shapes, Markup.Node.shape?,
      solidLines_commentItemData, List.append_nil]
  | .declaration _ _ => rfl

/-- The items say what the forest says. -/
theorem shapes_itemsOfAll : ∀ nodes : List Markup.Node,
    Markup.shapes (toNodes id (itemsOfAll nodes)) = Markup.shapes nodes
  | [] => rfl
  | node :: nodes => by
    rw [itemsOfAll, toNodes_append, Markup.shapes_append, shapes_itemsOf node,
      shapes_itemsOfAll nodes, Markup.shapes]

end

end TemplateProjection.Outline
