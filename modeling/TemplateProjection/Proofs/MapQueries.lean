import TemplateProjection.Proofs.Announcements

/-!
Queries over the mappings of a text. Both directions find the same pairs of spans, so that a query
one way is undone by a query the other way.
-/
namespace TemplateProjection

variable {m : Mapping} {r s source target : Span}

namespace MappingMode

/-- By offset, the part that is found stands as far into the target as the given one stands into
the source. -/
theorem transfer?_offset_iff :
    offset.transfer? source target r = some s ↔
      ∃ lead, lead + r.length ≤ source.length ∧ r.start = source.start + lead ∧
        s = ⟨target.start + lead, r.length⟩ := by
  simp only [transfer?, Option.ite_none_right_eq_some, Option.some.injEq, Span.contains_iff,
    Span.stop]
  constructor
  · rintro ⟨⟨hstart, hstop⟩, rfl⟩
    exact ⟨r.start - source.start, by omega, by omega, rfl⟩
  · rintro ⟨lead, hin, hstart, rfl⟩
    have hlead : r.start - source.start = lead := by omega
    exact ⟨by omega, by rw [hlead]⟩

theorem transfer?_gate_iff :
    gate.transfer? source target r = some s ↔ r = source ∧ s = target := by
  simp only [transfer?, Option.ite_none_right_eq_some, Option.some.injEq, @eq_comm _ target]

end MappingMode

namespace Mapping

/-- Offsets carry over between spans of one length only. -/
def Even (m : Mapping) : Prop := m.mode = .offset → m.original.length = m.synthetic.length

/-- The original span `r` and the synthetic span `s` answer to each other. -/
inductive Answers (m : Mapping) : (r s : Span) → Prop
  /-- They stand equally far into the two ends of the mapping. -/
  | offset {lead length : Nat} (hmode : m.mode = .offset)
      (hin : lead + length ≤ m.original.length) :
      Answers m ⟨m.original.start + lead, length⟩ ⟨m.synthetic.start + lead, length⟩
  | gate (hmode : m.mode = .gate) : Answers m m.original m.synthetic

theorem toSynthetic?_eq_some_iff : m.toSynthetic? r = some s ↔ m.Answers r s := by
  unfold toSynthetic?
  constructor
  · intro h
    cases hmode : m.mode with
    | offset =>
      rw [hmode] at h
      obtain ⟨lead, hin, hstart, rfl⟩ := MappingMode.transfer?_offset_iff.1 h
      obtain ⟨start, length⟩ := r
      cases hstart
      exact .offset hmode hin
    | gate =>
      rw [hmode] at h
      obtain ⟨rfl, rfl⟩ := MappingMode.transfer?_gate_iff.1 h
      exact .gate hmode
  · rintro (⟨hmode, hin⟩ | hmode)
    · rw [hmode]
      exact MappingMode.transfer?_offset_iff.2 ⟨_, hin, rfl, rfl⟩
    · rw [hmode]
      exact MappingMode.transfer?_gate_iff.2 ⟨rfl, rfl⟩

/-- The mapping read from its other end. -/
def flip (m : Mapping) : Mapping := { m with original := m.synthetic, synthetic := m.original }

/-- Seen from the other end, the same spans answer to each other. Only here the two ends have to
agree in their length. -/
theorem answers_flip (h : m.Even) : m.flip.Answers s r ↔ m.Answers r s := by
  constructor
  · rintro (⟨hmode, hin⟩ | hmode)
    · exact .offset hmode (h hmode ▸ hin)
    · exact .gate hmode
  · rintro (⟨hmode, hin⟩ | hmode)
    · exact .offset (m := m.flip) hmode (h hmode ▸ hin)
    · exact .gate (m := m.flip) hmode

theorem toOriginal?_eq_some_iff (h : m.Even) : m.toOriginal? s = some r ↔ m.Answers r s := by
  rw [← answers_flip h, ← toSynthetic?_eq_some_iff]
  rfl

theorem Answers.original_contains (h : m.Answers r s) : m.original.contains r := by
  cases h with
  | offset hmode hin =>
    simp only [Span.contains_iff, Span.stop]
    omega
  | gate hmode => exact Span.contains_iff.2 ⟨Nat.le_refl _, Nat.le_refl _⟩

theorem Answers.synthetic_contains (heven : m.Even) (h : m.Answers r s) :
    m.synthetic.contains s :=
  ((answers_flip heven).2 h).original_contains

end Mapping

namespace SourceMap

variable {map : SourceMap} {carry : Mapping → Option Span} {c : Capability} {index : Nat}

/-- Every mapping that carries offsets over has two ends of one length. -/
def Even (map : SourceMap) : Prop := ∀ m ∈ map.mappings, m.Even

/-- A query finds what the mappings at their places carry over, if they allow the capability. -/
theorem mem_query :
    ⟨s, m, index⟩ ∈ map.query carry c ↔
      map.mappings[index]? = some m ∧ m.capabilities.allows c ∧ carry m = some s := by
  simp only [query, List.mem_filterMap, Prod.exists, List.mem_zipIdx_iff_getElem?,
    Option.ite_none_right_eq_some, Option.map_eq_some_iff]
  constructor
  · rintro ⟨m', index', hat, hallows, s', hcarry, heq⟩
    cases heq
    exact ⟨hat, hallows, hcarry⟩
  · rintro ⟨hat, hallows, hcarry⟩
    exact ⟨m, index, hat, hallows, s, hcarry, rfl⟩

theorem mem_toSynthetic :
    ⟨s, m, index⟩ ∈ map.toSynthetic r c ↔
      map.mappings[index]? = some m ∧ m.capabilities.allows c ∧ m.Answers r s := by
  rw [toSynthetic, mem_query, Mapping.toSynthetic?_eq_some_iff]

theorem mem_toOriginal (h : map.Even) :
    ⟨r, m, index⟩ ∈ map.toOriginal s c ↔
      map.mappings[index]? = some m ∧ m.capabilities.allows c ∧ m.Answers r s := by
  rw [toOriginal, mem_query]
  refine and_congr_right fun hat => and_congr_right fun _ => ?_
  exact Mapping.toOriginal?_eq_some_iff (h m (List.mem_of_getElem? hat))

/-- The search that stops at the first answer finds the first of all answers. -/
theorem firstOriginal?_eq_head? (map : SourceMap) (s : Span) (c : Capability) :
    map.firstOriginal? s c = (map.toOriginal s c).head? :=
  List.head?_filterMap.symm

/-- Source maps are read the same from both ends: a synthetic span is found from an original one
by a mapping exactly if the original span is found from the synthetic one by that mapping, that is
if the mapping allows the capability and the spans answer to each other. What is found lies in the
end of the mapping it is looked for in, and the search for one original span finds the first. -/
theorem queries_mutually_inverse (h : map.Even) (c : Capability) (r s : Span) (m : Mapping)
    (index : Nat) :
    (⟨s, m, index⟩ ∈ map.toSynthetic r c ↔ ⟨r, m, index⟩ ∈ map.toOriginal s c) ∧
      (⟨s, m, index⟩ ∈ map.toSynthetic r c ↔
        map.mappings[index]? = some m ∧ m.capabilities.allows c ∧ m.Answers r s) ∧
      (⟨s, m, index⟩ ∈ map.toSynthetic r c → m.synthetic.contains s) ∧
      (⟨r, m, index⟩ ∈ map.toOriginal s c → m.original.contains r) ∧
      map.firstOriginal? s c = (map.toOriginal s c).head? := by
  refine ⟨?_, mem_toSynthetic, ?_, ?_, firstOriginal?_eq_head? map s c⟩
  · rw [mem_toSynthetic, mem_toOriginal h]
  · intro hfound
    obtain ⟨hat, -, hanswers⟩ := mem_toSynthetic.1 hfound
    exact hanswers.synthetic_contains (h m (List.mem_of_getElem? hat))
  · intro hfound
    exact ((mem_toOriginal h).1 hfound).2.2.original_contains

end SourceMap

/-- The source map of a projection has the lengths that its queries rely on. -/
theorem Code.project_sourceMap_even (alignment : Option Outline.Alignment)
    (root : List Template.Node) : (project alignment root).sourceMap.Even := by
  intro m hm hmode
  obtain ⟨e, -, link, -, hreal⟩ := exists_link_of_mem_project hm
  obtain ⟨before, after, -, -, hlen⟩ := Text.slice?_eq_some_iff.1 hreal.synthetic
  rw [(hreal.length_eq hmode).2, hlen]

/-- The end of an attribute's name, which is an empty span at the edge of two mappings. -/
theorem SourceMap.queries_mutually_inverse_edge :
    let map := (Code.projectMarkup "<p id=\"x\"/>".toList).sourceMap
    let m : Mapping := ⟨⟨3, 2⟩, ⟨35, 2⟩, .offset, .tagOrAttribute, some .property⟩
    map.Even ∧ ⟨⟨37, 0⟩, m, 5⟩ ∈ map.toSynthetic ⟨5, 0⟩ .rename ∧
      ⟨⟨5, 0⟩, m, 5⟩ ∈ map.toOriginal ⟨37, 0⟩ .rename ∧ m.original.contains ⟨5, 0⟩ := by
  intro map m
  have heven : map.Even := Code.project_sourceMap_even none _
  have hfound : ⟨⟨37, 0⟩, m, 5⟩ ∈ map.toSynthetic ⟨5, 0⟩ .rename := by decide +kernel
  obtain ⟨hboth, -, -, horiginal, -⟩ :=
    queries_mutually_inverse heven .rename ⟨5, 0⟩ ⟨37, 0⟩ m 5
  have hback := hboth.1 hfound
  exact ⟨heven, hfound, hback, horiginal hback⟩

end TemplateProjection
