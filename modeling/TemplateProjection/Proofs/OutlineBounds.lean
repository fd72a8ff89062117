import TemplateProjection.Proofs.AlignmentQueries
import TemplateProjection.Proofs.Ascii
import TemplateProjection.Proofs.Blanking
import TemplateProjection.Proofs.MappingBounds
import TemplateProjection.Proofs.NameMappings
import TemplateProjection.Session.Document

/-!
How far mappings into an outline reach. Where a mapping starts is found by looking for a literal
text in the outline, how long it is comes from the markup. The two lengths agree, except for an
expression with character references: it is looked for without them and measured with them, and so
its mapping may run past the end of the outline.
-/
namespace TemplateProjection

theorem Text.byteLength_of_eqIgnoringCase {s t : Text} (h : s.eqIgnoringCase t) :
    s.byteLength = t.byteLength := by
  have hlower : ∀ u : Text, Text.byteLength (u.map Char.toLower) = u.byteLength := by
    intro u
    induction u with
    | nil => rfl
    | cons c u ih => rw [List.map_cons, byteLength_cons, byteLength_cons, ih, utf8Size_toLower]
  rw [← hlower s, ← hlower t, beq_iff_eq.1 h]

theorem Markup.EndTagIn.length_eq {source name : Text} {span : Span}
    (h : EndTagIn source name span) : span.length = name.byteLength := by
  obtain ⟨e, -, -, hname, rfl⟩ := h
  exact (Text.byteLength_of_eqIgnoringCase hname).symm

namespace Outline

variable {outline markup needle : Text} {offset found : Nat} {c : Char}

/-- What is found starts in the markup as the needle does: a blanked end tag leaves only spaces. -/
theorem Alignment.in_of_locate? (hspace : c ≠ ' ')
    (h : (Alignment.ofTexts outline markup).locate? (c :: needle) offset = some found) :
    (Excerpt.mk offset [c]).In markup := by
  obtain ⟨before, after, happ, hbefore, -⟩ :=
    Text.slice?_eq_some_iff.1 (Alignment.slice?_markup_of_locate? h)
  have hblanked : Markup.blankEndTags markup = before ++ c :: (needle ++ after) := by
    rw [← List.cons_append, ← List.append_assoc]
    exact happ
  obtain ⟨before', after', hmarkup, hlen⟩ := Markup.of_blankEndTags_eq_append hspace hblanked
  exact ⟨before', after', by simpa using hmarkup, hlen.trans hbefore⟩

end Outline

namespace Template

/-- Without its brackets an argument starts with another character. -/
theorem argumentExpression_head (e : Excerpt) :
    (argumentExpression e).content = e.text ∨
      e.text.head? = some '[' ∧
        ∀ c ∈ (argumentExpression e).content.head?, c ≠ '[' ∧ c ∈ e.text := by
  simp only [argumentExpression]
  split
  · next hopen =>
    refine .inr ⟨beq_iff_eq.1 hopen, ?_⟩
    intro c hc
    obtain ⟨u, hu⟩ := List.head?_eq_some_iff.1 hc
    have happ := Text.dropTrailing_append (· == ']') (e.text.dropWhile (· == '['))
    rw [show Text.dropTrailing (· == ']') (e.text.dropWhile (· == '[')) = c :: u from hu,
      List.cons_append] at happ
    have hhead := List.head?_dropWhile_not (· == '[') e.text
    rw [← happ] at hhead
    refine ⟨by simpa using hhead, (List.dropWhile_sublist (· == '[')).subset ?_⟩
    rw [← happ]
    exact List.mem_cons_self
  · exact .inl rfl

end Template

namespace Code

open Template

variable {outline markup : Text} {part : Part} {e : Emission} {link : Link} {span o : Span}
  {m : Mapping}

/-- With an outline, an origin resolves to where its needle is found. -/
theorem exists_locate?_of_resolve {a : Outline.Alignment} {origin : Origin}
    (h : o ∈ origin.resolve (some a)) :
    ∃ span ∈ origin.spans, ∃ found, a.locate? origin.needle span.start = some found ∧
      o = ⟨found, span.length⟩ := by
  obtain ⟨span, hspan, hfound⟩ := List.mem_filterMap.1 h
  obtain ⟨found, hlocate, rfl⟩ := Option.map_eq_some_iff.1 hfound
  exact ⟨span, hspan, found, hlocate, rfl⟩

/-- How the span of a link compares with the text that is looked for in its place. -/
inductive Link.Measures (markup : Text) (link : Link) (span : Span) : Prop
  | within (h : span.length ≤ link.origin.needle.byteLength)
  /-- An argument in brackets is looked for without them. -/
  | bracketed (h : (Excerpt.mk span.start ['[']).In markup)
      (hneedle : ∀ c ∈ link.origin.needle.head?, c ≠ '[' ∧ ¬ isAsciiBlank c)
  /-- An expression is looked for without its character references. -/
  | shortened {e : Excerpt} (he : e.In markup) (hspan : span = e.span)
      (hneedle : link.origin.needle = Entity.normalize e.text)
      (hlt : (Entity.normalize e.text).byteLength < e.text.byteLength)
      (hcontent : link.mode = .offset → link.content = link.origin.needle)

theorem Link.Measures.of_expression {x : Expression} (hx : x.ReadIn markup)
    (hneedle : link.origin.needle = x.content)
    (hcontent : link.mode = .offset → link.content = x.content) :
    link.Measures markup x.span := by
  cases hx with
  | @written e he =>
    rcases Nat.lt_or_ge (Entity.normalize e.text).byteLength e.text.byteLength with hlt | hge
    · refine .shortened he rfl hneedle hlt fun hmode => ?_
      rw [hcontent hmode, hneedle]
    · refine .within ?_
      rw [hneedle]
      exact hge
  | implied => exact .within (Nat.zero_le _)

theorem Link.Measures.of_argument {head : ElementHead} {d : Directive} {x : Expression}
    (hhead : (Part.head head).ReadIn markup) (hd : .directive d ∈ head.properties)
    (hx : d.argument = some x) (hneedle : link.origin.needle = x.content) :
    link.Measures markup x.span := by
  obtain ⟨f, hf, hsolid, rfl⟩ := hhead.argument_solid hd hx
  rw [argumentExpression_span]
  rcases argumentExpression_head f with hcontent | ⟨hopen, hstart⟩
  · refine .within ?_
    rw [hneedle, hcontent]
    exact Nat.le_refl _
  · obtain ⟨t, ht⟩ := List.head?_eq_some_iff.1 hopen
    refine .bracketed (hf.initial (c := t) ht) ?_
    rw [hneedle]
    intro c hc
    obtain ⟨hne, hmem⟩ := hstart c hc
    exact ⟨hne, hsolid c hmem⟩

/-- The links of what a part emits measure their spans. -/
theorem Emits.measures (h : Emits part e) (hpart : part.ReadIn markup) (hlink : link ∈ e.links) :
    ∀ span ∈ link.origin.spans, link.Measures markup span := by
  obtain ⟨content, origin, mode, capabilities, tag⟩ := link
  have horigin := Emission.origin?_of_mem_links hlink
  intro span hspan
  cases h with
  | tag => cases horigin
  | slot => cases horigin
  | bag | options | attributeEntry | attributeName | bindingEntry =>
    cases horigin
    obtain rfl := List.mem_singleton.1 hspan
    exact .within (Nat.le_refl _)
  | tagName head =>
    cases horigin
    rcases List.mem_cons.1 hspan with rfl | hspan
    · exact .within (Nat.le_refl _)
    · split at hspan
      · cases hspan
      · have hend := (hpart.endName span (Option.mem_toList.1 hspan)).length_eq
        exact .within (Nat.le_of_eq hend)
  | value hp hx =>
    cases List.mem_singleton.1 hlink
    obtain rfl := List.mem_singleton.1 hspan
    exact .of_expression (hpart.expressions _ (List.mem_flatMap.2 ⟨_, hp, hx⟩)) rfl fun _ => rfl
  | argumentName _ _ hd hx =>
    cases horigin
    obtain rfl := List.mem_singleton.1 hspan
    exact .of_argument hpart hd hx rfl
  | listener hd hx =>
    cases horigin
    obtain rfl := List.mem_singleton.1 hspan
    exact .of_argument hpart hd hx rfl
  | expression x =>
    cases List.mem_singleton.1 hlink
    obtain rfl := List.mem_singleton.1 hspan
    exact .of_expression (hpart.expressions x (List.mem_singleton_self x)) rfl fun _ => rfl
  | clause hx =>
    cases List.mem_singleton.1 hlink
    obtain rfl := List.mem_singleton.1 hspan
    exact .of_expression (hpart.expressions _ hx) rfl fun _ => rfl
  | source c =>
    cases List.mem_singleton.1 hlink
    obtain rfl := List.mem_singleton.1 hspan
    have hsource := hpart.expressions c.source List.mem_cons_self
    exact .of_expression hsource rfl fun hmode => by cases hmode

/-- The mapping leads to an expression that is written with character references. It starts where
the outline holds the expression without them, and is as long as the expression with them. -/
structure Overmeasures (outline markup : Text) (m : Mapping) : Prop where
  mode : m.mode = .gate
  expression : ∃ e : Excerpt, e.In markup ∧ m.original.length = e.text.byteLength ∧
    (Entity.normalize e.text).byteLength < e.text.byteLength ∧
    outline.slice? ⟨m.original.start, (Entity.normalize e.text).byteLength⟩ =
      some (Entity.normalize e.text)

theorem Link.Measures.stop_le_or_overmeasures {text : Text} {found : Nat}
    (h : link.Measures markup span)
    (hlocate : (Outline.Alignment.ofTexts outline markup).locate? link.origin.needle span.start =
      some found)
    (hreal : link.RealizedBy (some (.ofTexts outline markup)) text m)
    (horiginal : m.original = ⟨found, span.length⟩) :
    m.original.stop ≤ outline.byteLength ∨ Overmeasures outline markup m := by
  have hslice := Outline.Alignment.slice?_of_locate? hlocate
  cases h with
  | within hle =>
    have hstop := Text.stop_le_of_slice? hslice
    simp only [Span.stop] at hstop
    left
    simp only [horiginal, Span.stop]
    exact Nat.le_trans (Nat.add_le_add_left hle found) hstop
  | bracketed hopen hneedle =>
    -- the needle would have to start with the bracket that it lacks
    have hnonempty := Outline.Alignment.ne_nil_of_locate? hlocate
    obtain ⟨c, needle, hcons⟩ := List.exists_cons_of_ne_nil hnonempty
    rw [hcons] at hlocate hneedle
    obtain ⟨hne, hsolid⟩ := hneedle c rfl
    have hspace : c ≠ ' ' := by
      rintro rfl
      exact hsolid (by decide)
    obtain ⟨_, _, happ⟩ := (Outline.Alignment.in_of_locate? hspace hlocate).append_eq hopen rfl
    exact absurd (List.cons.inj happ).1 hne
  | @shortened e he hspan hneedle hlt hcontent =>
    rw [hneedle] at hslice
    have hlength : m.original.length = e.text.byteLength := by
      rw [horiginal, hspan]
      rfl
    refine .inr ⟨?_, e, he, hlength, hlt, ?_⟩
    · cases hmode : m.mode with
      | gate => rfl
      | offset =>
        obtain ⟨hoffset, hlen⟩ := hreal.length_eq hmode
        rw [hcontent hoffset, hneedle] at hlen
        omega
    · rw [horiginal]
      exact hslice

theorem projectOutline_stop_le_or_overmeasures (h : m ∈ (projectOutline outline markup).mappings) :
    m.original.stop ≤ outline.byteLength ∨ Overmeasures outline markup m := by
  obtain ⟨e, he, link, hlink, hreal⟩ := exists_link_of_mem_project h
  rcases project_comeFrom _ e he with t | ⟨hpart, hemits⟩
  · cases hlink
  · obtain ⟨span, hspan, found, hlocate, horiginal⟩ := exists_locate?_of_resolve hreal.original
    have hmeasures := hemits.measures (parse_readIn markup _ hpart) hlink span hspan
    exact hmeasures.stop_le_or_overmeasures hlocate hreal horiginal

end Code

namespace VirtualDocument

/-- The original end of a mapping into an outline lies in the outline, except for mappings that
measure an expression with its character references. -/
theorem outline_originals_within_unless_overmeasured {id : DocumentId} {source : Text}
    {version : Nat} {d : VirtualDocument} {m : Mapping}
    (h : build? id source version .outline = some d) (hm : m ∈ d.sourceMap.mappings) :
    ∃ markup, Outline.toMarkup? source = some markup ∧
      (m.original.stop ≤ source.byteLength ∨ Code.Overmeasures source markup m) := by
  simp only [build?, Option.bind_eq_bind, Option.bind_eq_some_iff] at h
  obtain ⟨markup, hmarkup, hd⟩ := h
  cases hd
  exact ⟨markup, hmarkup, Code.projectOutline_stop_le_or_overmeasures hm⟩

theorem outline_originals_within_unless_overmeasured_ampersands :
    ∃ d, build? ⟨0, false⟩ "p &amp;&amp;\np(:a=\"&&amp;\")\n//- &&".toList 1 .outline = some d ∧
      ⟨⟨32, 6⟩, ⟨121, 2⟩, .gate, .all, none⟩ ∈ d.sourceMap.mappings ∧
      ∃ markup, Code.Overmeasures "p &amp;&amp;\np(:a=\"&&amp;\")\n//- &&".toList markup
        ⟨⟨32, 6⟩, ⟨121, 2⟩, .gate, .all, none⟩ := by
  have hany : (build? ⟨0, false⟩ "p &amp;&amp;\np(:a=\"&&amp;\")\n//- &&".toList 1 .outline).any
      fun d => decide (⟨⟨32, 6⟩, ⟨121, 2⟩, .gate, .all, none⟩ ∈ d.sourceMap.mappings) := by
    decide +kernel
  obtain ⟨d, hd, hm⟩ := (Option.any_eq_true _ _).1 hany
  have hm := of_decide_eq_true hm
  obtain ⟨markup, -, hstop | hover⟩ := outline_originals_within_unless_overmeasured hd hm
  · exact absurd hstop (by decide)
  · exact ⟨d, hd, hm, markup, hover⟩

/-- The outline ends with the two characters that the expression is sought by, so its mapping runs
past the end. -/
theorem original_stop_past_outline :
    ∃ d, build? ⟨0, false⟩ "p &amp;&amp;\np(:a=\"&&amp;\")\n//- &&".toList 1 .outline = some d ∧
      ∃ m ∈ d.sourceMap.mappings,
        Text.byteLength "p &amp;&amp;\np(:a=\"&&amp;\")\n//- &&".toList < m.original.stop := by
  have hany : (build? ⟨0, false⟩ "p &amp;&amp;\np(:a=\"&&amp;\")\n//- &&".toList 1 .outline).any
      fun d => decide (∃ m ∈ d.sourceMap.mappings,
        Text.byteLength "p &amp;&amp;\np(:a=\"&&amp;\")\n//- &&".toList < m.original.stop) := by
    decide +kernel
  obtain ⟨d, hd, hm⟩ := (Option.any_eq_true _ _).1 hany
  exact ⟨d, hd, of_decide_eq_true hm⟩

end VirtualDocument

end TemplateProjection
