import TemplateProjection.Proofs.Announcements
import TemplateProjection.Proofs.Names
import TemplateProjection.Proofs.Provenance
import TemplateProjection.Proofs.Spelling

/-!
Names of tags, properties and events that are linked by offset repeat the name in the markup, up to
the case of letters. Two kinds do not: the spelling of a listener may happen to have the length of
its event, and in an end tag that opens more than once the name is sought too early.
-/
namespace TemplateProjection

variable {source : Text} {span : Span} {e f : Excerpt}

theorem Text.eqIgnoringCase_refl (t : Text) : t.eqIgnoringCase t :=
  beq_iff_eq.2 rfl

theorem Text.eqIgnoringCase_symm {s t : Text} (h : s.eqIgnoringCase t) : t.eqIgnoringCase s :=
  beq_iff_eq.2 (beq_iff_eq.1 h).symm

/-- What stands at one place in the source starts alike. -/
theorem Excerpt.In.append_eq (he : e.In source) (hf : f.In source) (hstart : e.start = f.start) :
    ∃ a b, e.text ++ a = f.text ++ b := by
  obtain ⟨before, after, hsource, hbefore⟩ := he
  obtain ⟨lead, tail, hsource', hlead⟩ := hf
  have hcut := Text.cut?_byteLength before (e.text ++ after)
  rw [← List.append_assoc, ← hsource, hsource', List.append_assoc, hbefore, hstart, ← hlead,
    Text.cut?_byteLength] at hcut
  simp only [Option.some.injEq, Prod.mk.injEq] at hcut
  exact ⟨after, tail, hcut.2.symm⟩

namespace Markup

/-- At a second opening there stands no name. -/
theorem ReopenedAt.ne {name t u : Text} {c : Char} (h : ReopenedAt source span)
    (ht : source.slice? span = some t) (hname : name = c :: u) (hc : c.isAlpha) :
    ¬ t.eqIgnoringCase name := by
  obtain ⟨e, he, ⟨v, hv⟩, hstart⟩ := h
  intro heq
  subst hname
  cases t with
  | nil => simp [Text.eqIgnoringCase] at heq
  | cons d t =>
    obtain ⟨before, after, happ, hbefore, -⟩ := Text.slice?_eq_some_iff.1 ht
    have hslice : (Excerpt.mk span.start (d :: t)).In source := ⟨before, after, happ, hbefore⟩
    have hopen : Text.byteLength (e.text.take 2) = 2 := by
      rw [hv]
      exact (by decide : Text.byteLength ['<', '/'] = 2)
    obtain ⟨a, b, hab⟩ := hslice.append_eq (he.drop 2) (by simp [Excerpt.drop, hopen, hstart])
    have hd : d = '<' := by
      simp only [Excerpt.drop, hv] at hab
      exact (List.cons.inj hab).1
    have hhead := (List.cons.inj (beq_iff_eq.1 heq)).1
    rw [hd] at hhead
    have hlower := ascii_imp Char.isAlpha (fun c => c.toLower != '<') (by decide)
      (toNat_lt_of_isAlpha hc) hc
    simp [← hhead] at hlower

end Markup

namespace Template

/-- Without its brackets an argument is shorter than its span. -/
theorem argumentExpression_content (e : Excerpt) :
    (argumentExpression e).content = e.text ∨
      (∃ t, e.text = '[' :: t) ∧ (argumentExpression e).content.byteLength < e.text.byteLength := by
  simp only [argumentExpression]
  split
  · next hopen =>
    right
    have hcons : ∃ t, e.text = '[' :: t := by
      cases htext : e.text with
      | nil => simp [htext] at hopen
      | cons c t => exact ⟨t, by simpa [htext] using hopen⟩
    obtain ⟨t, ht⟩ := hcons
    refine ⟨⟨t, ht⟩, ?_⟩
    have hle := Text.byteLength_dropTrailing_le (· == ']') (t.dropWhile (· == '['))
    have happ := congrArg Text.byteLength
      (List.takeWhile_append_dropWhile (p := (· == '[')) (l := t))
    have hpos := Char.utf8Size_pos '['
    simp only [Text.byteLength_append] at happ
    simp only [ht, List.dropWhile_cons, beq_self_eq_true, if_true, Text.byteLength_cons]
    omega
  · exact .inl rfl

end Template

namespace Code

open Template

variable {part : Part} {m : Mapping}

/-- Both ends of a mapping hold one text, up to the case of letters. -/
def Linear (markup code : Text) (m : Mapping) : Prop :=
  ∃ t u, markup.slice? m.original = some t ∧ code.slice? m.synthetic = some u ∧
    t.eqIgnoringCase u

/-- The text at `span` is a name, and `spelling` is the name of a listener for it. -/
def SpellsListener (markup spelling : Text) (span : Span) : Prop :=
  ∃ e : Excerpt, e.In markup ∧ span = e.span ∧
    spelling = camelize ("on-".toList ++ (argumentExpression e).content)

/-- A spelling of a name that has the length of the name is the name. -/
theorem eq_of_spelling {name spelling : Text} (h : spelling = name ∨ spelling = propertyKey name)
    (hlen : spelling.byteLength = name.byteLength) : spelling = name := by
  rcases h with rfl | rfl
  · rfl
  · exact propertyKey_eq_self hlen

theorem byteLength_spelling_le {name spelling : Text}
    (h : spelling = name ∨ spelling = propertyKey name) :
    spelling.byteLength ≤ name.byteLength := by
  rcases h with rfl | rfl
  · exact Nat.le_refl _
  · exact byteLength_propertyKey_le name

/-- Only quoted text is linked by offset with the capabilities of a name. -/
theorem Emits.quoted_of_link {e : Emission} {link : Link} (h : Emits part e)
    (hlink : link ∈ e.links) (hmode : link.mode = .offset)
    (hcap : link.capabilities = .tagOrAttribute) :
    e = .quoted link.content link.origin .tagOrAttribute link.tag := by
  cases e with
  | mapped text origin mode capabilities =>
    obtain rfl := List.mem_singleton.1 hlink
    obtain rfl : capabilities = .tagOrAttribute := hcap
    cases h
  | quoted text origin capabilities mark =>
    simp only [Emission.links, List.mem_cons, List.not_mem_nil, or_false] at hlink
    rcases hlink with rfl | rfl
    · exact absurd hmode (by simp)
    · obtain rfl : capabilities = .tagOrAttribute := hcap
      rfl
  | announced text origin =>
    obtain rfl := List.mem_singleton.1 hlink
    exact absurd hmode (by simp)
  | code text => simp [Emission.links] at hlink
  | tag name => simp [Emission.links] at hlink
  | slot name var => simp [Emission.links] at hlink

/-- What a name of full length that a part emits has to do with the source. -/
theorem Emits.name_cases {text : Text} {origin : Origin} {mark : Option MappingTag}
    (h : Emits part (.quoted text origin .tagOrAttribute mark)) (hpart : part.ReadIn source)
    (hspan : span ∈ origin.spans) (hlen : span.length = text.byteLength) :
    (∃ t, source.slice? span = some t ∧ t.eqIgnoringCase text) ∨
      (mark = none ∧ SpellsListener source text span) ∨
      (mark = some .elementTag ∧ Markup.ReopenedAt source span ∧
        ∃ c t, text = c :: t ∧ c.isAlpha) := by
  cases h with
  | tagName head =>
    rcases List.mem_cons.1 hspan with rfl | hspan
    · exact .inl ⟨_, hpart.slice?_tag, Text.eqIgnoringCase_refl _⟩
    · split at hspan
      · simp at hspan
      · rcases (hpart.endName span (Option.mem_toList.1 hspan)).slice? with ⟨t, ht, hname⟩ | hopen
        · exact .inl ⟨t, ht, Text.eqIgnoringCase_symm hname⟩
        · exact .inr (.inr ⟨rfl, hopen, hpart.tag_cons⟩)
  | attributeName _ ha hspelling =>
    obtain rfl := List.mem_singleton.1 hspan
    rw [eq_of_spelling hspelling hlen.symm]
    exact .inl ⟨_, hpart.slice?_attribute ha, Text.eqIgnoringCase_refl _⟩
  | argumentName _ _ hd hx hspelling =>
    obtain rfl := List.mem_singleton.1 hspan
    obtain ⟨f, hf, rfl⟩ := hpart.argument hd hx
    rw [argumentExpression_span] at hlen ⊢
    rcases argumentExpression_content f with hcontent | ⟨-, hlt⟩
    · rw [hcontent] at hspelling
      rw [eq_of_spelling hspelling hlen.symm]
      exact .inl ⟨_, Excerpt.in_iff_slice?.1 hf, Text.eqIgnoringCase_refl _⟩
    · have hle := byteLength_spelling_le hspelling
      simp only [Excerpt.span] at hlen
      omega
  | listener hd hx =>
    obtain rfl := List.mem_singleton.1 hspan
    obtain ⟨f, hf, rfl⟩ := hpart.argument hd hx
    exact .inr (.inl ⟨rfl, f, hf, argumentExpression_span f, rfl⟩)

/-- The spelling of a listener differs from what the markup holds. -/
theorem SpellsListener.ne {spelling t : Text} (h : SpellsListener source spelling span)
    (ht : source.slice? span = some t) : ¬ t.eqIgnoringCase spelling := by
  obtain ⟨e, he, rfl, rfl⟩ := h
  rw [Excerpt.in_iff_slice?.1 he] at ht
  obtain rfl := Option.some.inj ht
  rcases argumentExpression_content e with hcontent | ⟨⟨u, hu⟩, -⟩
  · rw [hcontent]
    exact listener_ne_event e.text
  · intro heq
    rw [hu, camelize_on] at heq
    have hhead := (List.cons.inj (beq_iff_eq.1 heq)).1
    exact absurd hhead (by decide)

/-- Names linked by offset are linear, except for the spellings of listeners and for end tags that
open more than once, which never are. -/
theorem name_mappings_linear {markup : Text} (hm : m ∈ (projectMarkup markup).mappings)
    (hmode : m.mode = .offset) (hcap : m.capabilities = .tagOrAttribute) :
    Linear markup (projectMarkup markup).text m ∨
      ((∃ spelling, (projectMarkup markup).text.slice? m.synthetic = some spelling ∧
          m.tag = none ∧ SpellsListener markup spelling m.original) ∨
        (m.tag = some .elementTag ∧ Markup.ReopenedAt markup m.original)) ∧
      ¬ Linear markup (projectMarkup markup).text m := by
  obtain ⟨e, he, link, hlink, hreal⟩ := exists_link_of_mem_project hm
  obtain ⟨hoffset, hlen⟩ := hreal.length_eq hmode
  rcases project_comeFrom _ e he with t | ⟨hpart, hemits⟩
  · simp [Emission.links] at hlink
  · rw [hreal.capabilities] at hcap
    obtain rfl := hemits.quoted_of_link hlink hoffset hcap
    have hsynthetic : (projectMarkup markup).text.slice? m.synthetic = some link.content :=
      hreal.synthetic
    rcases hemits.name_cases (parse_readIn markup _ hpart) hreal.original hlen with
      ⟨t, ht, hsame⟩ | ⟨hnone, hspells⟩ | ⟨htag, hopen, c, u, hname, hc⟩
    · exact .inl ⟨t, link.content, ht, hsynthetic, hsame⟩
    · refine .inr ⟨.inl ⟨link.content, hsynthetic, hreal.tag.trans hnone, hspells⟩, ?_⟩
      rintro ⟨t, u, ht, hu, hsame⟩
      rw [hsynthetic] at hu
      cases hu
      exact hspells.ne ht hsame
    · refine .inr ⟨.inr ⟨hreal.tag.trans htag, hopen⟩, ?_⟩
      rintro ⟨t, u, ht, hu, hsame⟩
      rw [hsynthetic] at hu
      cases hu
      exact hopen.ne ht hname hc hsame

theorem name_mappings_linear_event :
    ⟨⟨4, 5⟩, ⟨116, 5⟩, .offset, .tagOrAttribute, none⟩ ∈
        (projectMarkup "<x @a-b-c=\"f\"/>".toList).mappings ∧
      (Linear "<x @a-b-c=\"f\"/>".toList (projectMarkup "<x @a-b-c=\"f\"/>".toList).text
          ⟨⟨4, 5⟩, ⟨116, 5⟩, .offset, .tagOrAttribute, none⟩ ∨
        SpellsListener "<x @a-b-c=\"f\"/>".toList "a-b-c".toList ⟨4, 5⟩) := by
  have hm : ⟨⟨4, 5⟩, ⟨116, 5⟩, .offset, .tagOrAttribute, none⟩ ∈
      (projectMarkup "<x @a-b-c=\"f\"/>".toList).mappings := by decide +kernel
  have hcode : (projectMarkup "<x @a-b-c=\"f\"/>".toList).text.slice? ⟨116, 5⟩ =
      some "a-b-c".toList := by decide +kernel
  refine ⟨hm, ?_⟩
  rcases name_mappings_linear hm rfl rfl with h | ⟨⟨spelling, hslice, -, h⟩ | ⟨htag, -⟩, -⟩
  · exact .inl h
  · cases hslice.symm.trans hcode
    exact .inr h
  · simp at htag

/-- An event with two hyphens is as long as the spelling of its listener. -/
theorem listener_mapping_not_linear :
    ∃ m ∈ (projectMarkup "<x @a-b-c=\"f\"/>".toList).mappings,
      m.mode = .offset ∧ m.capabilities = .tagOrAttribute ∧
      Text.slice? "<x @a-b-c=\"f\"/>".toList m.original = some "a-b-c".toList ∧
      (projectMarkup "<x @a-b-c=\"f\"/>".toList).text.slice? m.synthetic =
        some "onABC".toList := by
  decide +kernel

end Code

end TemplateProjection
