import TemplateProjection.Code.Emission
import TemplateProjection.Proofs.Excerpt

/-! The text of assembled emissions, and the mappings into it. -/
namespace TemplateProjection

namespace Mapping

theorem shift_shift (m : Mapping) (offset offset' : Nat) :
    (m.shift offset).shift offset' = m.shift (offset + offset') := by
  simp [shift, Span.shift, Nat.add_assoc]

theorem map_shift_zero (ms : List Mapping) : ms.map (·.shift 0) = ms := List.map_id ms

end Mapping

namespace Code

variable {alignment : Option Outline.Alignment} {m : Mapping}

namespace Fragment

variable {code : Text} {originals : List Span} {mode : MappingMode} {capabilities : Capabilities}
  {tag : Option MappingTag}

@[simp]
theorem append_text (f g : Fragment) : (f ++ g).text = f.text ++ g.text := rfl

@[simp]
theorem append_mappings (f g : Fragment) :
    (f ++ g).mappings = f.mappings ++ g.mappings.map (·.shift f.text.byteLength) := rfl

@[simp]
theorem mapped_text : (mapped code originals mode capabilities tag).text = code := rfl

@[simp]
theorem quoted_text : (quoted code originals capabilities tag).text = '\'' :: code ++ ['\''] := rfl

@[simp]
theorem mapped_mappings : (mapped code originals mode capabilities tag).mappings =
    originals.map (mappingTo code.byteLength mode capabilities tag) := by
  simp [mapped, ahead, plain]

/-- Quoted text is linked once with its quotes and once without them. -/
@[simp]
theorem quoted_mappings : (quoted code originals capabilities tag).mappings =
    originals.map (mappingTo (code.byteLength + 2) .gate capabilities tag) ++
      originals.map fun o =>
        (mappingTo code.byteLength .offset capabilities tag o).shift 1 := by
  have hquote : Text.byteLength ['\''] = 1 := by decide
  simp [quoted, ahead, plain, Function.comp_def, hquote]

end Fragment

namespace Emission

/-- The text of an emission, wherever it comes from. -/
def text : Emission → Text
  | .code text => text
  | .mapped text _ _ _ => text
  | .quoted text _ _ _ => '\'' :: text ++ ['\'']
  | .announced _ _ => []
  | .tag _ => []
  | .slot _ _ => []

@[simp]
theorem fragment_text (e : Emission) : (e.fragment alignment).text = e.text := by
  cases e <;> rfl

end Emission

@[simp]
theorem assemble_text (es : List Emission) :
    (assemble alignment es).text = es.flatMap Emission.text := by
  induction es with
  | nil => rfl
  | cons e es ih => simp [assemble, ih]

theorem assemble_append_mappings (es fs : List Emission) :
    (assemble alignment (es ++ fs)).mappings = (assemble alignment es).mappings ++
      (assemble alignment fs).mappings.map
        (·.shift (Text.byteLength (es.flatMap Emission.text))) := by
  induction es with
  | nil => exact (Mapping.map_shift_zero _).symm
  | cons e es ih => simp [assemble, ih, Mapping.shift_shift, Nat.add_comm]

/-- Every mapping is one of a single emission, moved behind the text emitted before. -/
theorem exists_of_mem_assemble {es : List Emission} (h : m ∈ (assemble alignment es).mappings) :
    ∃ before e after, es = before ++ e :: after ∧
      ∃ m' ∈ (e.fragment alignment).mappings,
        m = m'.shift (Text.byteLength (before.flatMap Emission.text)) := by
  induction es generalizing m with
  | nil => simp [assemble, Fragment.empty] at h
  | cons e es ih =>
    rw [assemble, Fragment.append_mappings, List.mem_append] at h
    rcases h with h | h
    · exact ⟨[], e, es, rfl, m, h, rfl⟩
    · obtain ⟨m₁, hm₁, rfl⟩ := List.mem_map.1 h
      obtain ⟨before, e', after, rfl, m', hm', rfl⟩ := ih hm₁
      refine ⟨e :: before, e', after, rfl, m', hm', ?_⟩
      simp [Mapping.shift_shift, Nat.add_comm]

/-- A mapping of an emission is found behind the text emitted before. -/
theorem mem_assemble {before after : List Emission} {e : Emission}
    (h : m ∈ (e.fragment alignment).mappings) :
    m.shift (Text.byteLength (before.flatMap Emission.text)) ∈
      (assemble alignment (before ++ e :: after)).mappings := by
  rw [assemble_append_mappings]
  exact List.mem_append_right _ (List.mem_map_of_mem (List.mem_append_left _ h))

/-- A text that is linked to its origin, however the origin is resolved. -/
structure Link where
  content : Text
  origin : Origin
  mode : MappingMode
  capabilities : Capabilities
  tag : Option MappingTag
deriving DecidableEq, Repr

def Emission.links : Emission → List Link
  | .code _ => []
  | .mapped text origin mode capabilities => [⟨text, origin, mode, capabilities, none⟩]
  | .quoted text origin capabilities mark =>
    [⟨'\'' :: text ++ ['\''], origin, .gate, capabilities, mark⟩,
      ⟨text, origin, .offset, capabilities, mark⟩]
  | .announced text origin => [⟨text, origin, .gate, .diagnosticOnly, none⟩]
  | .tag _ => []
  | .slot _ _ => []

/-- What an emission says of the text behind it. -/
def Emission.promise : Emission → Text
  | .announced text _ => text
  | _ => []

/-- Every announced text follows its announcement. -/
def Kept : List Emission → Prop
  | [] => True
  | e :: es => e.promise <+: es.flatMap Emission.text ∧ Kept es

theorem Kept.append {es fs : List Emission} (he : Kept es) (hf : Kept fs) : Kept (es ++ fs) := by
  induction es with
  | nil => exact hf
  | cons e es ih =>
    refine ⟨he.1.trans ?_, ih he.2⟩
    exact ⟨fs.flatMap Emission.text, (List.flatMap_append).symm⟩

theorem Kept.of_append {es fs : List Emission} (h : Kept (es ++ fs)) : Kept fs := by
  induction es with
  | nil => exact h
  | cons e es ih => exact ih h.2

theorem kept_flatMap {α : Type} (xs : List α) {emit : α → List Emission}
    (h : ∀ x, Kept (emit x)) : Kept (xs.flatMap emit) := by
  induction xs with
  | nil => trivial
  | cons x xs ih => exact (h x).append ih

/-- The mapping is the link, resolved to one of its spans, with its content written in `text`. -/
structure Link.RealizedBy (alignment : Option Outline.Alignment) (text : Text) (link : Link)
    (m : Mapping) : Prop where
  original : m.original ∈ link.origin.resolve alignment
  synthetic : text.slice? m.synthetic = some link.content
  mode : m.mode = if m.original.length = link.content.byteLength then link.mode else .gate
  capabilities : m.capabilities = link.capabilities
  tag : m.tag = link.tag

/-- Each mapping into assembled code is a link of an emission, with its text in place. -/
theorem exists_link_of_mem_assemble {es : List Emission} (hkept : Kept es)
    (h : m ∈ (assemble alignment es).mappings) :
    ∃ e ∈ es, ∃ link ∈ e.links,
      link.RealizedBy alignment (assemble alignment es).text m := by
  obtain ⟨before, e, after, rfl, m', hm', rfl⟩ := exists_of_mem_assemble h
  refine ⟨e, by simp, ?_⟩
  rw [assemble_text, List.flatMap_append, List.flatMap_cons]
  -- the content of a link stands `lead` behind the text emitted before
  have hslice : ∀ lead content rest : Text,
      e.text ++ after.flatMap Emission.text = lead ++ content ++ rest →
      Text.slice? (before.flatMap Emission.text ++ (e.text ++ after.flatMap Emission.text))
        ⟨lead.byteLength + Text.byteLength (before.flatMap Emission.text), content.byteLength⟩ =
        some content := by
    intro lead content rest happ
    refine Text.slice?_eq_some_iff.2 ⟨before.flatMap Emission.text ++ lead, rest, ?_, ?_, rfl⟩
    · simp [happ]
    · simp [Nat.add_comm]
  cases e with
  | mapped text origin mode capabilities =>
    simp only [Emission.fragment, Fragment.mapped_mappings] at hm'
    obtain ⟨o, ho, rfl⟩ := List.mem_map.1 hm'
    exact ⟨_, List.mem_singleton_self _, ho, hslice [] text _ rfl, rfl, rfl, rfl⟩
  | quoted text origin capabilities mark =>
    simp only [Emission.fragment, Fragment.quoted_mappings, List.mem_append] at hm'
    have hquote : Text.byteLength ['\''] = 1 := by decide
    have hwhole : Text.byteLength ('\'' :: text ++ ['\'']) = text.byteLength + 2 := by
      simp only [Text.byteLength_append, Text.byteLength_cons, hquote]
      have : Char.utf8Size '\'' = 1 := by decide
      omega
    rcases hm' with hm' | hm'
    · obtain ⟨o, ho, rfl⟩ := List.mem_map.1 hm'
      refine ⟨_, List.mem_cons_self, ho, ?_, ?_, rfl, rfl⟩
      · have := hslice [] ('\'' :: text ++ ['\'']) _ rfl
        rwa [hwhole] at this
      · simp only [Mapping.shift, Fragment.mappingTo, hwhole]
    · obtain ⟨o, ho, rfl⟩ := List.mem_map.1 hm'
      refine ⟨_, List.mem_cons_of_mem _ (List.mem_singleton_self _), ho, ?_, rfl, rfl, rfl⟩
      have := hslice ['\''] text (['\''] ++ after.flatMap Emission.text) (by simp [Emission.text])
      simpa [hquote, Fragment.mappingTo, Mapping.shift, Span.shift, Nat.add_comm] using this
  | announced text origin =>
    simp only [Emission.fragment, Fragment.ahead] at hm'
    obtain ⟨o, ho, rfl⟩ := List.mem_map.1 hm'
    obtain ⟨rest, hrest⟩ := hkept.of_append.1
    exact ⟨_, List.mem_singleton_self _, ho, hslice [] text rest (by simp [Emission.text, ← hrest,
      Emission.promise]), rfl, rfl, rfl⟩
  | code text => simp [Emission.fragment, Fragment.plain] at hm'
  | tag name => simp [Emission.fragment, Fragment.empty] at hm'
  | slot name var => simp [Emission.fragment, Fragment.empty] at hm'

/-- A mapping in offset mode links spans of one length. -/
theorem Link.RealizedBy.length_eq {text : Text} {link : Link}
    (h : link.RealizedBy alignment text m) (hmode : m.mode = .offset) :
    link.mode = .offset ∧ m.original.length = link.content.byteLength := by
  have hm := h.mode
  rw [hmode] at hm
  split at hm
  · next hlen => exact ⟨hm.symm, hlen⟩
  · simp at hm

end Code

end TemplateProjection
