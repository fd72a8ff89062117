import TemplateProjection.Proofs.Announcements
import TemplateProjection.Proofs.Expressions
import TemplateProjection.Proofs.Provenance
import TemplateProjection.Session.Document

/-! Code that repeats an expression repeats the very bytes that its mapping leads to. -/
namespace TemplateProjection

namespace Code

open Template

variable {source : Text} {alignment : Option Outline.Alignment} {m : Mapping} {o : Span}

/-- Without an outline, an expression of the length of its span stands at that span. -/
theorem slice?_of_resolve_none {x : Expression} (hx : x.ExactIn source)
    (ho : o ∈ Origin.resolve none ⟨x.content, [x.span]⟩) (hlen : o.length = x.content.byteLength) :
    source.slice? o = some x.content := by
  obtain rfl : o = x.span := by simpa [Origin.resolve] using ho
  exact hx hlen

/-- With an outline, an expression stands wherever it is located. -/
theorem slice?_of_resolve_some {a : Outline.Alignment} {x : Expression}
    (ho : o ∈ Origin.resolve (some a) ⟨x.content, [x.span]⟩)
    (hlen : o.length = x.content.byteLength) : a.outline.slice? o = some x.content := by
  simp only [Origin.resolve, List.filterMap_cons, List.filterMap_nil] at ho
  split at ho
  · simp at ho
  · next o' hfound =>
    obtain ⟨start, hlocate, rfl⟩ := Option.map_eq_some_iff.1 hfound
    obtain rfl := List.mem_singleton.1 ho
    rw [show x.span.length = x.content.byteLength from hlen]
    exact Outline.Alignment.slice?_of_locate? hlocate

theorem Emits.expression_of_mapped {part : Part} {text : Text} {origin : Origin}
    {capabilities : Capabilities} (h : Emits part (.mapped text origin .offset capabilities)) :
    ∃ x ∈ part.expressions, text = x.content ∧ origin = ⟨x.content, [x.span]⟩ := by
  cases h with
  | value hp hx => exact ⟨_, List.mem_flatMap.2 ⟨_, hp, hx⟩, rfl, rfl⟩
  | expression x => exact ⟨x, List.mem_singleton_self x, rfl, rfl⟩
  | clause hx => exact ⟨_, hx, rfl, rfl⟩

theorem Emits.capabilities_of_quoted {part : Part} {text : Text} {origin : Origin}
    {capabilities : Capabilities} {mark : Option MappingTag}
    (h : Emits part (.quoted text origin capabilities mark)) :
    capabilities = .tagOrAttribute ∨ capabilities = .referencesOnly := by
  cases h with
  | options => exact .inr rfl
  | tagName => exact .inl rfl
  | attributeName => exact .inl rfl
  | argumentName => exact .inl rfl
  | listener => exact .inl rfl

/-- What has the capabilities of an expression and is linked by offset repeats an expression. -/
theorem Emits.expression_of_link {part : Part} {e : Emission} {link : Link} (h : Emits part e)
    (hlink : link ∈ e.links) (hmode : link.mode = .offset)
    (hcap : link.capabilities = .all ∨ link.capabilities = .noFormatting) :
    ∃ x ∈ part.expressions, link.content = x.content ∧ link.origin = ⟨x.content, [x.span]⟩ := by
  cases e with
  | mapped text origin mode capabilities =>
    obtain rfl := List.mem_singleton.1 hlink
    obtain rfl : mode = .offset := hmode
    exact h.expression_of_mapped
  | quoted text origin capabilities mark =>
    have hsame : link.capabilities = capabilities := by
      simp only [Emission.links, List.mem_cons, List.not_mem_nil, or_false] at hlink
      rcases hlink with rfl | rfl <;> rfl
    rw [hsame] at hcap
    rcases h.capabilities_of_quoted with rfl | rfl <;> exact absurd hcap (by decide)
  | announced text origin =>
    obtain rfl := List.mem_singleton.1 hlink
    exact absurd hmode (by simp)
  | code text => simp [Emission.links] at hlink
  | tag name => simp [Emission.links] at hlink
  | slot name var => simp [Emission.links] at hlink

/-- If expressions resolve to spans that hold them, so do the mappings that lead to them. -/
theorem project_exact {root : List Node}
    (hxs : ∀ x ∈ (partsOfAll root).flatMap Part.expressions,
      ∀ o ∈ Origin.resolve alignment ⟨x.content, [x.span]⟩,
        o.length = x.content.byteLength → source.slice? o = some x.content)
    (hm : m ∈ (project alignment root).mappings)
    (hcap : m.capabilities = .all ∨ m.capabilities = .noFormatting) (hmode : m.mode = .offset) :
    ∃ t, source.slice? m.original = some t ∧
      (project alignment root).text.slice? m.synthetic = some t := by
  obtain ⟨e, he, link, hlink, hreal⟩ := exists_link_of_mem_project hm
  obtain ⟨hoffset, hlen⟩ := hreal.length_eq hmode
  rcases project_comeFrom root e he with t | ⟨hpart, hemits⟩
  · simp [Emission.links] at hlink
  · rw [hreal.capabilities] at hcap
    obtain ⟨x, hx, hcontent, horigin⟩ := hemits.expression_of_link hlink hoffset hcap
    have horiginal := hreal.original
    rw [horigin] at horiginal
    rw [hcontent] at hlen
    refine ⟨x.content, hxs x (List.mem_flatMap.2 ⟨_, hpart, hx⟩) _ horiginal hlen, ?_⟩
    rw [hreal.synthetic, hcontent]

end Code

namespace VirtualDocument

/-- Code that may be edited like its source repeats the source byte by byte: both ends of a mapping
lie in their texts and hold the same text. -/
theorem expression_mappings_exact {id : DocumentId} {source : Text} {version : Nat}
    {language : Language} {d : VirtualDocument} {m : Mapping}
    (h : build? id source version language = some d) (hm : m ∈ d.sourceMap.mappings)
    (hcap : m.capabilities = .all ∨ m.capabilities = .noFormatting) (hmode : m.mode = .offset) :
    m.original.stop ≤ source.byteLength ∧ m.synthetic.stop ≤ d.text.byteLength ∧
      ∃ t, source.slice? m.original = some t ∧ d.text.slice? m.synthetic = some t := by
  have hexact : ∃ t, source.slice? m.original = some t ∧ d.text.slice? m.synthetic = some t := by
    cases language with
    | markup =>
      cases h
      refine Code.project_exact ?_ hm hcap hmode
      intro x hx o ho hlen
      exact Code.slice?_of_resolve_none (Template.parse_exact source x hx) ho hlen
    | outline =>
      simp only [build?, Option.bind_eq_bind, Option.bind_eq_some_iff] at h
      obtain ⟨markup, -, hd⟩ := h
      cases hd
      refine Code.project_exact ?_ hm hcap hmode
      intro x _ o ho hlen
      exact Code.slice?_of_resolve_some ho hlen
  obtain ⟨t, horiginal, hsynthetic⟩ := hexact
  exact ⟨Text.stop_le_of_slice? horiginal, Text.stop_le_of_slice? hsynthetic, t, horiginal,
    hsynthetic⟩

theorem expression_mappings_exact_interpolation :
    ∃ d, build? ⟨0, false⟩ "p \x7b\x7b a \x7d\x7d".toList 1 .outline = some d ∧
      ⟨⟨5, 1⟩, ⟨38, 1⟩, .offset, .all, none⟩ ∈ d.sourceMap.mappings ∧ 38 + 1 ≤ d.text.byteLength ∧
      ∃ t, Text.slice? "p \x7b\x7b a \x7d\x7d".toList ⟨5, 1⟩ = some t ∧
        d.text.slice? ⟨38, 1⟩ = some t := by
  have hany : (build? ⟨0, false⟩ "p \x7b\x7b a \x7d\x7d".toList 1 .outline).any fun d =>
      decide (⟨⟨5, 1⟩, ⟨38, 1⟩, .offset, .all, none⟩ ∈ d.sourceMap.mappings) := by
    decide +kernel
  obtain ⟨d, hd, hm⟩ := (Option.any_eq_true _ _).1 hany
  have hm := of_decide_eq_true hm
  exact ⟨d, hd, hm, (expression_mappings_exact hd hm (Or.inl rfl) rfl).2⟩

end VirtualDocument

end TemplateProjection
