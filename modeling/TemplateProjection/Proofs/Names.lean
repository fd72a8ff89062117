import TemplateProjection.Code.Element
import TemplateProjection.Proofs.Parts

/-! Where the names of an element stand: its tag, its attributes and the arguments of directives. -/
namespace TemplateProjection

variable {source : Text} {e : Excerpt}

theorem Excerpt.In.stop_le (h : e.In source) : e.stop ≤ source.byteLength :=
  Text.stop_le_of_slice? (Excerpt.in_iff_slice?.1 h)

namespace Markup

theorem OpenTag.ReadIn.slice?_name {tag : OpenTag} (h : tag.ReadIn source) :
    source.slice? ⟨tag.span.start + 1, tag.name.byteLength⟩ = some tag.name := by
  obtain ⟨e, he, ⟨c, u, hu, -⟩, rfl⟩ := h
  have hmark : Text.byteLength (e.text.take 1) = 1 := by
    rw [hu]
    exact (by decide : Text.byteLength ['<'] = 1)
  have hname := Excerpt.in_iff_slice?.1 ((he.drop 1).takeWhile
    fun c => !(isAsciiBlank c || c == '>' || c == '/'))
  simp only [Excerpt.span, Excerpt.takeWhile, Excerpt.drop, hmark] at hname
  exact hname

theorem OpenTag.ReadIn.name_cons {tag : OpenTag} (h : tag.ReadIn source) :
    ∃ c t, tag.name = c :: t ∧ c.isAlpha := by
  obtain ⟨e, he, ⟨c, u, hu, halpha⟩, rfl⟩ := h
  have hname : (!(isAsciiBlank c || c == '>' || c == '/')) = true := by
    have hend := isAlpha_not_tagEnd halpha
    simp only [Bool.not_eq_true', Bool.or_eq_false_iff] at hend ⊢
    obtain ⟨⟨hblank, hslash⟩, hgt⟩ := hend
    refine ⟨⟨?_, hgt⟩, hslash⟩
    cases hascii : isAsciiBlank c with
    | false => rfl
    | true => simp [isBlank_of_isAsciiBlank hascii] at hblank
  refine ⟨c, u.takeWhile fun c => !(isAsciiBlank c || c == '>' || c == '/'), ?_, halpha⟩
  simp only [OpenTag.ofExcerpt, Excerpt.takeWhile, Excerpt.drop, hu, List.drop_succ_cons,
    List.drop_zero, List.takeWhile_cons, hname, if_true]

/-- An end tag that opens more than once, such as `</</p>`, stands in the source, and the span
starts at its second opening. -/
def ReopenedAt (source : Text) (span : Span) : Prop :=
  ∃ e : Excerpt, e.In source ∧ (∃ u, e.text = "</</".toList ++ u) ∧ span.start = e.start + 2

variable {name : Text} {span : Span}

theorem EndTagIn.stop_le (h : EndTagIn source name span) : span.stop ≤ source.byteLength := by
  obtain ⟨e, he, ⟨u, hu⟩, -, rfl⟩ := h
  have hname := byteLength_endTagName_le u
  have hstop := he.stop_le
  rw [← hu] at hname
  simp only [Excerpt.stop] at hstop
  simp only [Span.stop]
  omega

/-- The name of an end tag stands at its span, unless the tag opens more than once. -/
theorem EndTagIn.slice? (h : EndTagIn source name span) :
    (∃ t, source.slice? span = some t ∧ name.eqIgnoringCase t) ∨ ReopenedAt source span := by
  obtain ⟨e, he, ⟨u, hu⟩, hname, rfl⟩ := h
  by_cases hagain : ∃ v, u = '<' :: '/' :: v
  · obtain ⟨v, rfl⟩ := hagain
    exact .inr ⟨e, he, ⟨v, hu⟩, rfl⟩
  · refine .inl ⟨endTagName e.text, ?_, hname⟩
    have hopeners : endTagName.dropOpeners u = u := by
      rw [endTagName.dropOpeners]
      exact fun v hv => hagain ⟨v, hv⟩
    have htext : endTagName e.text = (Text.dropTrailing (· == '>') u).trimEnd := by
      rw [hu, endTagName, endTagName.dropOpeners, hopeners]
    have hlead : Text.byteLength (e.text.take 2) = 2 := by
      rw [hu]
      exact (by decide : Text.byteLength ['<', '/'] = 2)
    have hin := Excerpt.in_iff_slice?.1
      (((he.drop 2).dropTrailing (· == '>')).dropTrailing isBlank)
    simp only [Excerpt.span, Excerpt.dropTrailing, Excerpt.drop, hlead] at hin
    simp only [hu, List.drop_succ_cons, List.drop_zero] at hin
    rw [htext]
    exact hin

end Markup

namespace Template

variable {head : ElementHead}

theorem locate_stop_le {span : Span} (h : span.start ≤ source.byteLength) :
    (locate source span).span.stop ≤ source.byteLength := by
  simp only [locate, Text.slice]
  cases hslice : source.slice? span with
  | none => simpa [Excerpt.span, Span.stop] using h
  | some t =>
    obtain ⟨_, _, _, _, hlen⟩ := Text.slice?_eq_some_iff.1 hslice
    simpa [Excerpt.span, Span.stop, hlen] using Text.stop_le_of_slice? hslice

theorem Part.ReadIn.slice?_tag (h : (Part.head head).ReadIn source) :
    source.slice? head.tagSpan = some head.tag := by
  cases h with
  | head htag _ _ hname _ hloc =>
    rw [ElementHead.tagSpan, hname, hloc]
    exact htag.slice?_name

theorem Part.ReadIn.tag_cons (h : (Part.head head).ReadIn source) :
    ∃ c t, head.tag = c :: t ∧ c.isAlpha := by
  cases h with
  | head htag _ _ hname =>
    rw [hname]
    exact htag.name_cons

theorem Part.ReadIn.endName (h : (Part.head head).ReadIn source) :
    ∀ span ∈ head.endName, Markup.EndTagIn source head.tag span := by
  cases h with
  | head _ _ hend hname =>
    rw [hname]
    exact hend

/-- Every property was read from an attribute, whose name has no blanks. -/
theorem Part.ReadIn.property_solid (h : (Part.head head).ReadIn source) {p : Property}
    (hp : p ∈ head.properties) : ∃ a : Markup.Attribute, a.PlacedIn source ∧
      (∀ c ∈ a.name, ¬ isAsciiBlank c) ∧ propertyOf source a = p := by
  cases h with
  | head htag _ _ _ hproperties =>
    rw [hproperties] at hp
    obtain ⟨a, ha, rfl⟩ := List.mem_map.1 hp
    have hmem := (List.mem_filter.1 ha).1
    exact ⟨a, htag.attributes a hmem, htag.names_solid a hmem, rfl⟩

theorem Part.ReadIn.property (h : (Part.head head).ReadIn source) {p : Property}
    (hp : p ∈ head.properties) : ∃ a : Markup.Attribute, a.PlacedIn source ∧
      propertyOf source a = p := by
  obtain ⟨a, hplaced, -, heq⟩ := h.property_solid hp
  exact ⟨a, hplaced, heq⟩

theorem Part.ReadIn.loc_stop_le (h : (Part.head head).ReadIn source) {p : Property}
    (hp : p ∈ head.properties) : p.loc.span.stop ≤ source.byteLength := by
  obtain ⟨a, hplaced, rfl⟩ := h.property hp
  have hstart : a.span.start ≤ source.byteLength := by
    rw [hplaced.start]
    exact Nat.le_trans (Nat.le_add_right _ _) (Text.stop_le_of_slice? hplaced.name)
  simp only [propertyOf]
  split <;> exact locate_stop_le hstart

theorem Part.ReadIn.slice?_attribute (h : (Part.head head).ReadIn source) {a : Attribute}
    (ha : .attribute a ∈ head.properties) :
    source.slice? (Code.attributeNameSpan a) = some a.name := by
  obtain ⟨b, hplaced, heq⟩ := h.property ha
  simp only [propertyOf] at heq
  split at heq
  · cases heq
    have hname := hplaced.name
    obtain ⟨_, _, _, _, hlen⟩ := Text.slice?_eq_some_iff.1 hname
    simp only [Code.attributeNameSpan, locate, hplaced.start, hlen]
    exact hname
  · simp at heq

theorem DirectiveName.withArgument_in (name : Text) (h : e.In source) :
    ∀ argument ∈ (DirectiveName.withArgument name e).argument, argument.In source := by
  have hbracket : (Excerpt.mk e.start ((e.text.takeWhile (· != ']')) ++
      (e.text.dropWhile (· != ']')).take 1)).In source := by
    refine h.initial (c := (e.text.dropWhile (· != ']')).drop 1) ?_
    simp only [List.append_assoc, List.take_append_drop, List.takeWhile_append_dropWhile]
  intro argument hargument
  simp only [DirectiveName.withArgument, Option.mem_def, Option.ite_none_left_eq_some,
    Option.some.injEq] at hargument
  obtain ⟨-, rfl⟩ := hargument
  split
  · exact hbracket
  · exact h.takeWhile _

theorem DirectiveName.read?_in {d : DirectiveName} (h : e.In source)
    (hread : DirectiveName.read? e = some d) : ∀ argument ∈ d.argument, argument.In source := by
  simp only [DirectiveName.read?] at hread
  split at hread
  · split at hread
    · cases hread
      exact withArgument_in _ (((h.drop 2).dropWhile _).drop 1)
    · cases hread
      simp
  · cases hread
    exact withArgument_in _ (h.drop 1)
  · cases hread
    exact withArgument_in _ (h.drop 1)
  · cases hread
    exact withArgument_in _ (h.drop 1)
  · simp at hread

theorem DirectiveName.withArgument_subset (name : Text) (e : Excerpt) :
    ∀ argument ∈ (DirectiveName.withArgument name e).argument, argument.text ⊆ e.text := by
  intro argument hargument
  simp only [DirectiveName.withArgument, Option.mem_def, Option.ite_none_left_eq_some,
    Option.some.injEq] at hargument
  obtain ⟨-, rfl⟩ := hargument
  split
  · refine List.append_subset.2 ⟨(List.takeWhile_sublist _).subset, ?_⟩
    exact List.Subset.trans (List.take_subset _ _) (List.dropWhile_sublist _).subset
  · exact (List.takeWhile_sublist _).subset

theorem DirectiveName.read?_subset {d : DirectiveName} (hread : DirectiveName.read? e = some d) :
    ∀ argument ∈ d.argument, argument.text ⊆ e.text := by
  intro argument hargument
  simp only [DirectiveName.read?] at hread
  split at hread
  · split at hread
    · cases hread
      refine List.Subset.trans (withArgument_subset _ _ argument hargument) ?_
      refine List.Subset.trans (List.drop_subset _ _) ?_
      exact List.Subset.trans (List.dropWhile_sublist _).subset (List.drop_subset _ _)
    · cases hread
      cases hargument
  · cases hread
    exact List.Subset.trans (withArgument_subset _ _ argument hargument) (List.drop_subset _ _)
  · cases hread
    exact List.Subset.trans (withArgument_subset _ _ argument hargument) (List.drop_subset _ _)
  · cases hread
    exact List.Subset.trans (withArgument_subset _ _ argument hargument) (List.drop_subset _ _)
  · cases hread

/-- The argument of a directive stands in the source, with its brackets if it has any. It has no
blanks. -/
theorem Part.ReadIn.argument_solid (h : (Part.head head).ReadIn source) {d : Directive}
    {x : Expression} (hd : .directive d ∈ head.properties) (hx : d.argument = some x) :
    ∃ e : Excerpt, e.In source ∧ (∀ c ∈ e.text, ¬ isAsciiBlank c) ∧ x = argumentExpression e := by
  obtain ⟨a, hplaced, hsolid, heq⟩ := h.property_solid hd
  simp only [propertyOf] at heq
  split at heq
  · simp at heq
  · next name hread =>
    cases heq
    obtain ⟨e, he, rfl⟩ := Option.map_eq_some_iff.1 hx
    obtain ⟨before, after, happ, hstart, -⟩ := Text.slice?_eq_some_iff.1 hplaced.name
    have hin : (Excerpt.mk a.nameSpan.start a.name).In source := ⟨before, after, happ, hstart⟩
    refine ⟨e, DirectiveName.read?_in hin hread e he, ?_, rfl⟩
    intro c hc
    exact hsolid c (DirectiveName.read?_subset hread e he hc)

theorem Part.ReadIn.argument (h : (Part.head head).ReadIn source) {d : Directive} {x : Expression}
    (hd : .directive d ∈ head.properties) (hx : d.argument = some x) :
    ∃ e : Excerpt, e.In source ∧ x = argumentExpression e := by
  obtain ⟨e, he, -, heq⟩ := h.argument_solid hd hx
  exact ⟨e, he, heq⟩

theorem argumentExpression_span (e : Excerpt) : (argumentExpression e).span = e.span := by
  simp only [argumentExpression]
  split <;> rfl

end Template

end TemplateProjection
