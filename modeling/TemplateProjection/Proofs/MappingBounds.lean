import TemplateProjection.Proofs.Announcements
import TemplateProjection.Proofs.Expressions
import TemplateProjection.Proofs.Names
import TemplateProjection.Proofs.Provenance

/-! Both ends of a mapping lie in their texts. -/
namespace TemplateProjection.Code

open Template

variable {source : Text} {part : Part} {e : Emission} {m : Mapping}

/-- The spans that an emission comes from. -/
def Emission.spans : Emission → List Span
  | .mapped _ origin _ _ => origin.spans
  | .quoted _ origin _ _ => origin.spans
  | .announced _ origin => origin.spans
  | _ => []

/-- The origin that the links of an emission share. -/
def Emission.origin? : Emission → Option Origin
  | .mapped _ origin _ _ => some origin
  | .quoted _ origin _ _ => some origin
  | .announced _ origin => some origin
  | _ => none

theorem Emission.origin?_of_mem_links {link : Link} (h : link ∈ e.links) :
    e.origin? = some link.origin := by
  cases e with
  | mapped text origin mode capabilities =>
    obtain rfl := List.mem_singleton.1 h
    rfl
  | quoted text origin capabilities mark =>
    simp only [Emission.links, List.mem_cons, List.not_mem_nil, or_false] at h
    rcases h with rfl | rfl <;> rfl
  | announced text origin =>
    obtain rfl := List.mem_singleton.1 h
    rfl
  | code text => simp [Emission.links] at h
  | tag name => simp [Emission.links] at h
  | slot name var => simp [Emission.links] at h

theorem Emission.spans_of_origin? {origin : Origin} (h : e.origin? = some origin) :
    e.spans = origin.spans := by
  cases e <;> cases h <;> rfl

/-- What comes from a part that was read in the source comes from spans of the source. -/
theorem Emits.stop_le (h : Emits part e) (hpart : part.ReadIn source) :
    ∀ span ∈ e.spans, span.stop ≤ source.byteLength := by
  intro span hspan
  cases h with
  | tag => simp [Emission.spans] at hspan
  | slot => simp [Emission.spans] at hspan
  | bag =>
    obtain rfl := List.mem_singleton.1 hspan
    exact Text.stop_le_of_slice? hpart.slice?_tag
  | options =>
    obtain rfl := List.mem_singleton.1 hspan
    exact Text.stop_le_of_slice? hpart.slice?_tag
  | tagName head =>
    rcases List.mem_cons.1 hspan with rfl | hspan
    · exact Text.stop_le_of_slice? hpart.slice?_tag
    · split at hspan
      · simp at hspan
      · exact (hpart.endName span (Option.mem_toList.1 hspan)).stop_le
  | value hp hx =>
    obtain rfl := List.mem_singleton.1 hspan
    exact (hpart.expressions _ (List.mem_flatMap.2 ⟨_, hp, hx⟩)).stop_le
  | attributeEntry ha =>
    obtain rfl := List.mem_singleton.1 hspan
    exact hpart.loc_stop_le ha
  | attributeName _ ha =>
    obtain rfl := List.mem_singleton.1 hspan
    exact Text.stop_le_of_slice? (hpart.slice?_attribute ha)
  | bindingEntry hd =>
    obtain rfl := List.mem_singleton.1 hspan
    exact hpart.loc_stop_le hd
  | argumentName _ _ hd hx =>
    obtain rfl := List.mem_singleton.1 hspan
    obtain ⟨f, hf, rfl⟩ := hpart.argument hd hx
    rw [argumentExpression_span]
    exact hf.stop_le
  | listener hd hx =>
    obtain rfl := List.mem_singleton.1 hspan
    obtain ⟨f, hf, rfl⟩ := hpart.argument hd hx
    rw [argumentExpression_span]
    exact hf.stop_le
  | expression x =>
    obtain rfl := List.mem_singleton.1 hspan
    exact (hpart.expressions x (List.mem_singleton_self x)).stop_le
  | clause hx =>
    obtain rfl := List.mem_singleton.1 hspan
    exact (hpart.expressions _ hx).stop_le
  | source c =>
    obtain rfl := List.mem_singleton.1 hspan
    exact (hpart.expressions c.source List.mem_cons_self).stop_le

/-- Without an outline, the original end of a mapping lies in the markup. -/
theorem original_stop_le (markup : Text) (h : m ∈ (projectMarkup markup).mappings) :
    m.original.stop ≤ markup.byteLength := by
  obtain ⟨e, he, link, hlink, hreal⟩ := exists_link_of_mem_project h
  have hspan : m.original ∈ e.spans := by
    rw [Emission.spans_of_origin? (Emission.origin?_of_mem_links hlink)]
    exact hreal.original
  rcases project_comeFrom _ e he with t | ⟨hpart, hemits⟩
  · simp [Emission.spans] at hspan
  · exact hemits.stop_le (parse_readIn markup _ hpart) _ hspan

/-- Mappings are well formed. The synthetic end of each lies in the code and cuts no character,
offsets carry over only between spans of one length, and without an outline the original end lies
in the markup. -/
theorem mappings_wellFormed :
    (∀ (alignment : Option Outline.Alignment) (root : List Node),
      ∀ m ∈ (project alignment root).mappings,
        m.synthetic.stop ≤ (project alignment root).text.byteLength ∧
        ((project alignment root).text.cut? m.synthetic.start).isSome ∧
        ((project alignment root).text.cut? m.synthetic.stop).isSome ∧
        (m.mode = .offset → m.original.length = m.synthetic.length)) ∧
    ∀ markup : Text, ∀ m ∈ (projectMarkup markup).mappings,
      m.original.stop ≤ markup.byteLength := by
  refine ⟨?_, fun markup m hm => original_stop_le markup hm⟩
  intro alignment root m hm
  obtain ⟨e, he, link, hlink, hreal⟩ := exists_link_of_mem_project hm
  have hslice := hreal.synthetic
  refine ⟨Text.stop_le_of_slice? hslice, ?_⟩
  obtain ⟨before, after, happ, hstart, hlen⟩ := Text.slice?_eq_some_iff.1 hslice
  refine ⟨?_, ?_, ?_⟩
  · rw [happ, ← hstart, List.append_assoc, Text.cut?_byteLength]
    rfl
  · rw [happ, Span.stop, ← hstart, ← hlen, ← Text.byteLength_append, Text.cut?_byteLength]
    rfl
  · intro hmode
    rw [← hlen]
    exact (hreal.length_eq hmode).2

theorem mappings_wellFormed_binding :
    ⟨⟨7, 2⟩, ⟨40, 2⟩, .offset, .all, none⟩ ∈
        (projectMarkup "<p :a=\"é\"/>".toList).mappings ∧
      40 + 2 ≤ (projectMarkup "<p :a=\"é\"/>".toList).text.byteLength ∧
      ((projectMarkup "<p :a=\"é\"/>".toList).text.cut? 42).isSome ∧
      7 + 2 ≤ Text.byteLength "<p :a=\"é\"/>".toList := by
  have hm : ⟨⟨7, 2⟩, ⟨40, 2⟩, .offset, .all, none⟩ ∈
      (projectMarkup "<p :a=\"é\"/>".toList).mappings := by decide +kernel
  obtain ⟨hstop, -, hcut, -⟩ := mappings_wellFormed.1 none _ _ hm
  exact ⟨hm, hstop, hcut, mappings_wellFormed.2 _ _ hm⟩

end TemplateProjection.Code
