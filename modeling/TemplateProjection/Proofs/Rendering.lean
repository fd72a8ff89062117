import TemplateProjection.Proofs.Escaping
import TemplateProjection.Proofs.OutlineItems
import TemplateProjection.Proofs.ShapeText

/-! Rendered items spell out the nodes they stand for, with attribute values escaped. -/
namespace TemplateProjection.Outline

open Markup (Written isElementName isVoid renderEndTag)

variable {a : Attribute} {tag : Tag} {item : Item} {items : List Item}

namespace Attribute

/-- An escaped value needs no other quotes. -/
theorem Settled.render_toMarkup (h : a.Settled) : (a.toMarkup Entity.escape).render = a.render := by
  obtain ⟨v, hv, -⟩ := h.value
  have hquote := Entity.quote_not_mem_escape v
  simp [Attribute.render, Markup.Attribute.render, toMarkup, hv, h.verbatim, hquote]

theorem Settled.printable_escape (h : a.Settled) : (a.toMarkup Entity.escape).Printable where
  name := h.name
  value := by
    obtain ⟨v, hv, -⟩ := h.value
    rw [toMarkup, hv]
    rintro _ ⟨⟩
    exact Or.inl (Entity.quote_not_mem_escape v)

theorem Settled.printable (h : a.Settled) : (a.toMarkup id).Printable where
  name := h.name
  value := by
    obtain ⟨v, hv, hplain⟩ := h.value
    rw [toMarkup, hv]
    rintro _ ⟨⟩
    exact hplain.quotes

theorem Settled.normalize_toMarkup (h : a.Settled) :
    (a.toMarkup Entity.escape).normalize = a.toMarkup id := by
  obtain ⟨v, hv, hplain⟩ := h.value
  simp only [Markup.Attribute.normalize, toMarkup, hv, Option.map_some, Entity.normalize_escape,
    Text.replace_of_not_infix hplain.reference, id]

end Attribute

theorem close_not_infix_append {data : Text} (h : ¬ "-->".toList <:+: data) :
    ¬ "-->".toList <:+: data ++ [' '] := by
  intro hin
  rcases List.infix_append_iff.1 hin with hin | hin | ⟨s, t, hst, hs, ht⟩
  · exact h hin
  · exact absurd hin (by decide)
  · rcases List.prefix_cons_iff.1 ht with rfl | ⟨u, rfl, -⟩
    · rw [List.append_nil] at hst
      exact h (hst ▸ hs.isInfix)
    · have hspace : ' ' ∈ "-->".toList := by simp [hst]
      exact absurd hspace (by decide)

theorem Tag.render_toMarkup (hattributes : ∀ a ∈ tag.attributes, a.Settled)
    (hopen : tag.selfClosing = false) :
    (tag.toMarkup Entity.escape).render = tag.renderOpen ++ ['>'] := by
  have hmap : (tag.attributes.flatMap fun a => ' ' :: (a.toMarkup Entity.escape).render) =
      tag.attributes.flatMap fun a => ' ' :: a.render :=
    List.flatMap_congr fun a ha => by rw [(hattributes a ha).render_toMarkup]
  simp only [Markup.OpenTag.render, Markup.OpenTag.tail, Tag.toMarkup, Tag.renderOpen, hopen,
    List.flatMap_map, hmap, Markup.closer]
  simp

theorem Tag.printable {spell : Text → Text} (hname : isElementName tag.name)
    (h : ∀ a ∈ tag.attributes, (a.toMarkup spell).Printable) : (tag.toMarkup spell).Printable where
  name := hname
  attributes := by
    intro a ha
    obtain ⟨b, hb, rfl⟩ := List.mem_map.1 ha
    exact h b hb

theorem Item.Settled.render_cons (h : item.Settled) (htext : item.isText = false) :
    ∃ u, item.render = '<' :: u := by
  cases h with
  | element hname hattributes hopen =>
    simp only [Item.render, hopen, Tag.renderOpen]
    split
    · next hclosing => cases hclosing
    · split <;> exact ⟨_, rfl⟩
  | text => cases htext
  | comment => exact ⟨_, rfl⟩

/-- What is rendered is empty or starts with a tag, unless a text comes first. -/
theorem renderAll_head (hitems : ∀ item ∈ items, item.Settled)
    (hhead : ∀ item ∈ items.head?, item.isText = false) (afterText : Bool) :
    ∀ c ∈ (renderAll afterText items).head?, c = '<' := by
  cases items with
  | nil => simp [renderAll]
  | cons item items =>
    have htext := hhead item rfl
    obtain ⟨u, hu⟩ := (hitems item List.mem_cons_self).render_cons htext
    simp [renderAll, htext, hu]

mutual

theorem Item.written : ∀ item : Item, item.Settled → item.isText = false →
    ∀ (rest : Text) (nodes : List Markup.Node), Written rest nodes →
      Written (item.render ++ rest) (item.toNode Entity.escape :: nodes)
  | .element tag children, h, _, rest, nodes, hrest => by
    cases h with
    | element hname hattributes hopen hleaf hapart hchildren =>
      have htag := Tag.printable hname fun a ha => (hattributes a ha).printable_escape
      have hrender := Tag.render_toMarkup hattributes hopen
      by_cases hvoid : isVoid tag.name
      · have hrendered : Item.render (.element tag children) =
            (tag.toMarkup Entity.escape).render := by
          simp [Item.render, hopen, hvoid, hrender]
        rw [hrendered, hleaf hvoid]
        exact .atom_append (.leaf _ _ htag (by simp [Tag.toMarkup, hvoid])) hrest
      · have hrendered : Item.render (.element tag children) ++ rest =
            (tag.toMarkup Entity.escape).render ++
              (renderAll false children ++ (renderEndTag tag.name ++ rest)) := by
          simp [Item.render, hopen, hvoid, hrender, renderEndTag]
        rw [hrendered]
        refine .element_append _ _ htag (by simp [Tag.toMarkup, hopen, hvoid]) ?_ hrest
        exact written_renderAll children false hchildren hapart (by simp)
  | .text _, _, htext, _, _, _ => by cases htext
  | .comment data, h, _, rest, nodes, hrest => by
    cases h with
    | comment hamp hclose =>
      have hrendered : Item.render (.comment data) =
          "<!--".toList ++ (data ++ [' '] ++ "-->".toList) := by
        simp [Item.render]
      rw [hrendered]
      exact .atom_append (.comment _ (close_not_infix_append hclose)) hrest
  | .markup _, h, _, _, _, _ => by cases h

/-- Rendered items spell out their nodes. -/
theorem written_renderAll : ∀ (items : List Item) (afterText : Bool),
    (∀ item ∈ items, item.Settled) → ItemsApart items →
      (afterText → ∀ item ∈ items.head?, item.isText = false) →
        Written (renderAll afterText items) (toNodes Entity.escape items)
  | [], _, _, _, _ => .last List.not_mem_nil
  | item :: items, afterText, hall, hapart, hafter => by
    obtain ⟨hitem, hitems⟩ := List.forall_mem_cons.1 hall
    obtain ⟨hnext, hapart⟩ := List.isChain_cons.1 hapart
    have hhead : item.isText → ∀ next ∈ items.head?, next.isText = false := by
      intro htext next hmem
      simpa [htext] using hnext next hmem
    have hrest := written_renderAll items item.isText hitems hapart hhead
    have hfeed : (if afterText && item.isText then ['\n'] else []) = ([] : Text) := by
      cases hboth : afterText with
      | false => rfl
      | true => simp [hafter hboth item rfl]
    rw [renderAll, hfeed, List.nil_append, toNodes]
    cases htext : item.isText with
    | false =>
      rw [htext] at hrest
      exact Item.written item hitem htext _ _ hrest
    | true =>
      cases hitem with
      | element => cases htext
      | comment => cases htext
      | @text t hlt hamp hwords =>
        have hne : t.isEmpty = false := by
          cases t with
          | nil => exact absurd rfl hwords
          | cons c t => rfl
        have htext := hrest.text_append hlt (renderAll_head hitems (hhead rfl) true)
        rw [Markup.textNodes, hne] at htext
        exact htext

end

mutual

theorem Item.normalize_toNode : ∀ item : Item, item.Settled →
    (item.toNode Entity.escape).normalize = item.toNode id
  | .element tag children, h => by
    cases h with
    | element hname hattributes hopen hleaf hapart hchildren =>
      have hmap : tag.attributes.map (Markup.Attribute.normalize ∘ (·.toMarkup Entity.escape)) =
          tag.attributes.map (·.toMarkup id) :=
        List.map_congr_left fun a ha => (hattributes a ha).normalize_toMarkup
      simp only [Item.toNode, Markup.Node.normalize, Tag.toMarkup, Markup.OpenTag.normalize,
        List.map_map, hmap, normalizeAll_toNodes children hchildren]
  | .text t, h => by
    cases h with
    | text hlt hamp =>
      simp only [Item.toNode, Markup.Node.normalize, Entity.normalize_of_not_mem hamp]
  | .comment data, h => by
    cases h with
    | comment hamp =>
      have hnone : '&' ∉ data ++ [' '] := by simpa using hamp
      simp only [Item.toNode, Markup.Node.normalize, Entity.normalize_of_not_mem hnone]
  | .markup _, h => by cases h

/-- Putting characters for the references undoes the escaping of attribute values. -/
theorem normalizeAll_toNodes : ∀ items : List Item, (∀ item ∈ items, item.Settled) →
    Markup.normalizeAll (toNodes Entity.escape items) = toNodes id items
  | [], _ => rfl
  | item :: items, h => by
    obtain ⟨hitem, hitems⟩ := List.forall_mem_cons.1 h
    simp only [toNodes, Markup.normalizeAll, Item.normalize_toNode item hitem,
      normalizeAll_toNodes items hitems]

end

end TemplateProjection.Outline
