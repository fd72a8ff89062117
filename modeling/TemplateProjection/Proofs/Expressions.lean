import TemplateProjection.Proofs.Parts

/-! The expressions of a template, each written in the source just as it is kept. -/
namespace TemplateProjection.Template

variable {source t : Text} {span : Span} {e : Excerpt} {a : Markup.Attribute} {x : Expression}

/-- Where an expression was read. -/
inductive Expression.ReadIn (source : Text) : Expression → Prop
  | written {e : Excerpt} (h : e.In source) : ReadIn source (.ofExcerpt e)
  /-- A condition that is not written out. -/
  | implied {offset : Nat} (h : (Excerpt.mk offset []).In source) :
      ReadIn source ⟨"true".toList, .empty offset, false, true⟩

/-- An expression as long as its span stands there. One of another length was rewritten. -/
def Expression.ExactIn (source : Text) (x : Expression) : Prop :=
  x.span.length = x.content.byteLength → source.slice? x.span = some x.content

/-- Only references change a text, and they change its length. -/
theorem Expression.ReadIn.exact (h : x.ReadIn source) : x.ExactIn source := by
  intro hlen
  cases h with
  | @written e he =>
    have hsame : Entity.normalize e.text = e.text := Entity.normalize_eq_self hlen.symm
    simpa [Expression.ofExcerpt, Expression.ofText, hsame] using Excerpt.in_iff_slice?.1 he
  | implied => exact absurd hlen (by decide : 0 ≠ Text.byteLength "true".toList)

theorem Expression.ReadIn.stop_le (h : x.ReadIn source) : x.span.stop ≤ source.byteLength := by
  cases h with
  | written he => exact Text.stop_le_of_slice? (Excerpt.in_iff_slice?.1 he)
  | implied he => exact Text.stop_le_of_slice? (Excerpt.in_iff_slice?.1 he)

theorem Expression.ofText_readIn (h : source.slice? span = some t) :
    (Expression.ofText t span).ReadIn source := by
  obtain ⟨before, after, happ, hstart, hlen⟩ := Text.slice?_eq_some_iff.1 h
  have hspan : span = (Excerpt.mk span.start t).span := by
    simp [Excerpt.span, hlen]
  rw [hspan]
  exact .written (e := ⟨span.start, t⟩) ⟨before, after, happ, hstart⟩

/-- The expression is a part of the source, trimmed. -/
theorem Expression.ofExcerpt?_cases (h : e.In source) (hx : Expression.ofExcerpt? e = some x) :
    ∃ f : Excerpt, f.In source ∧ x = .ofExcerpt f := by
  simp only [Expression.ofExcerpt?] at hx
  split at hx
  · simp at hx
  · cases hx
    exact ⟨e.trim, h.trim, rfl⟩

theorem conditionOf_readIn (h : a.PlacedIn source) : (conditionOf a).ReadIn source := by
  simp only [conditionOf]
  split
  · next v hv => exact Expression.ofText_readIn (h.value v hv)
  · exact .implied h.stop

theorem splitClause?_in {names rest : Excerpt} (h : e.In source)
    (hsplit : splitClause? e = some (names, rest)) : names.In source ∧ rest.In source := by
  simp only [splitClause?] at hsplit
  split at hsplit
  · simp at hsplit
  · cases hsplit
    exact ⟨h.breakAt_fst _, ((h.breakAt_snd _).dropWhile _).drop 2⟩

theorem bareNames_in (h : e.In source) : (bareNames e).In source := by
  have hopen : (if e.trim.text.head? == some '(' then e.trim.drop 1 else e.trim).In source := by
    split
    · exact h.trim.drop 1
    · exact h.trim
  simp only [bareNames]
  generalize (if e.trim.text.head? == some '(' then e.trim.drop 1 else e.trim) = f at hopen ⊢
  split
  · exact hopen.dropLast
  · exact hopen

theorem splitNames_in (h : e.In source) :
    (splitNames e).1.In source ∧ (∀ key ∈ (splitNames e).2.1, key.In source) ∧
      ∀ index ∈ (splitNames e).2.2, index.In source := by
  have hrest := (h.breakAt_snd startsIterators).drop 1
  simp only [splitNames]
  split
  · exact ⟨h.breakAt_fst _, by simp, by simp⟩
  · refine ⟨h.breakAt_fst _, ?_, ?_⟩
    · rintro _ ⟨⟩
      exact hrest.takeWhile _
    · split
      · simp
      · rintro _ ⟨⟩
        exact (hrest.dropWhile _).drop 1

theorem LoopClause.ofExcerpt_cases (h : e.In source) :
    ∀ x ∈ (LoopClause.ofExcerpt e).expressions,
      ∃ f : Excerpt, f.In source ∧ x = .ofExcerpt f := by
  intro x hx
  simp only [LoopClause.ofExcerpt] at hx
  split at hx
  · simp only [LoopClause.expressions, Option.toList_none, List.append_nil,
      List.mem_singleton] at hx
    exact ⟨e.trim, h.trim, hx⟩
  · next names rest hsplit =>
    obtain ⟨hnames, hrest⟩ := splitClause?_in h hsplit
    obtain ⟨hvalue, hkey, hindex⟩ := splitNames_in (bareNames_in hnames)
    simp only [LoopClause.expressions, List.mem_cons, List.mem_append, Option.mem_toList,
      Option.bind_eq_some_iff] at hx
    rcases hx with rfl | (hx | ⟨key, hk, hx⟩) | ⟨index, hi, hx⟩
    · exact ⟨rest.trim, hrest.trim, rfl⟩
    · exact Expression.ofExcerpt?_cases hvalue hx
    · exact Expression.ofExcerpt?_cases (hkey key hk) hx
    · exact Expression.ofExcerpt?_cases (hindex index hi) hx

/-- The expressions of a loop clause are parts of the source. -/
theorem LoopClause.ofAttribute_cases (h : a.PlacedIn source) :
    ∀ x ∈ (LoopClause.ofAttribute a).expressions,
      ∃ f : Excerpt, f.In source ∧ x = .ofExcerpt f := by
  simp only [LoopClause.ofAttribute]
  split
  · next v hv =>
    have hplace := h.value v hv
    obtain ⟨before, after, happ, hstart, -⟩ := Text.slice?_eq_some_iff.1 hplace
    exact ofExcerpt_cases ⟨before, after, happ, hstart⟩
  · exact ofExcerpt_cases h.stop

theorem propertyOf_readIn (h : a.PlacedIn source) :
    ∀ x ∈ (propertyOf source a).values, x.ReadIn source := by
  simp only [propertyOf]
  split
  · simp [Property.values]
  · intro x hx
    simp only [Property.values, Option.mem_toList, Option.map_eq_some_iff] at hx
    obtain ⟨v, hv, rfl⟩ := hx
    exact Expression.ofText_readIn (h.value v hv)

theorem Part.ReadIn.expressions {part : Part} (h : part.ReadIn source) :
    ∀ x ∈ part.expressions, x.ReadIn source := by
  intro x hx
  cases h with
  | head htag _ _ _ hproperties =>
    obtain ⟨p, hp, hx⟩ := List.mem_flatMap.1 hx
    rw [hproperties] at hp
    obtain ⟨a, ha, rfl⟩ := List.mem_map.1 hp
    exact propertyOf_readIn (htag.attributes a (List.mem_filter.1 ha).1) x hx
  | interpolation hin =>
    rw [List.mem_singleton.1 hx]
    exact .written hin.trim
  | condition ha =>
    rw [List.mem_singleton.1 hx]
    exact conditionOf_readIn ha
  | clause ha =>
    obtain ⟨e, he, rfl⟩ := LoopClause.ofAttribute_cases ha x hx
    exact .written he

/-- Every expression of a template that has the length of its span stands at that span. -/
theorem parse_exact (source : Text) :
    ∀ x ∈ (partsOfAll (parse source)).flatMap Part.expressions, x.ExactIn source := by
  intro x hx
  obtain ⟨part, hpart, hx⟩ := List.mem_flatMap.1 hx
  exact ((parse_readIn source part hpart).expressions x hx).exact

end TemplateProjection.Template
