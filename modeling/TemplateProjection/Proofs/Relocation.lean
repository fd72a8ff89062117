import Mathlib.Data.List.Forall2
import TemplateProjection.Code.Projection
import TemplateProjection.Proofs.Assembly

/-! What an alignment with an outline changes in a projection: only where mappings lead. -/
namespace TemplateProjection.Code

variable {m m' : Mapping} {a : Outline.Alignment}

/-- The mappings differ at most in where the original span starts. -/
def Relocated (m' m : Mapping) : Prop :=
  ∃ start, m' = { m with original := ⟨start, m.original.length⟩ }

theorem Relocated.shift (h : Relocated m' m) (offset : Nat) :
    Relocated (m'.shift offset) (m.shift offset) := by
  obtain ⟨start, rfl⟩ := h
  exact ⟨start, rfl⟩

/-- The mode of a mapping depends on the length of its original, which a relocation keeps. -/
theorem Relocated.mappingTo (start : Nat) (span : Span) (length : Nat) (mode : MappingMode)
    (capabilities : Capabilities) (tag : Option MappingTag) :
    Relocated (Fragment.mappingTo length mode capabilities tag ⟨start, span.length⟩)
      (Fragment.mappingTo length mode capabilities tag span) :=
  ⟨start, rfl⟩

/-- Some mappings are left out and the others relocated. -/
abbrev RelocatedSome : List Mapping → List Mapping → Prop := List.SublistForall₂ Relocated

namespace RelocatedSome

variable {ms ms' ns ns' : List Mapping}

theorem append (h : RelocatedSome ms' ms) (hn : RelocatedSome ns' ns) :
    RelocatedSome (ms' ++ ns') (ms ++ ns) := by
  obtain ⟨kept, hkept, hsub⟩ := List.sublistForall₂_iff.1 h
  obtain ⟨kept', hkept', hsub'⟩ := List.sublistForall₂_iff.1 hn
  exact List.sublistForall₂_iff.2 ⟨kept ++ kept', List.rel_append hkept hkept', hsub.append hsub'⟩

theorem shift (h : RelocatedSome ms' ms) (offset : Nat) :
    RelocatedSome (ms'.map (·.shift offset)) (ms.map (·.shift offset)) := by
  induction h with
  | nil => exact .nil
  | cons hm _ ih => exact .cons (hm.shift offset) ih
  | cons_right _ ih => exact .cons_right ih

end RelocatedSome

/-- An alignment drops the spans of an origin that it cannot place, and keeps the length of the
others. -/
theorem Origin.resolve_relocated {f : Span → Mapping}
    (hf : ∀ start span, Relocated (f ⟨start, span.length⟩) (f span))
    (o : Origin) : RelocatedSome ((o.resolve (some a)).map f) ((o.resolve none).map f) := by
  obtain ⟨needle, spans⟩ := o
  simp only [resolve]
  induction spans with
  | nil => exact .nil
  | cons span spans ih =>
    cases hlocate : a.locate? needle span.start with
    | none => simpa [hlocate] using List.SublistForall₂.cons_right ih
    | some start =>
      simp only [List.filterMap_cons, hlocate, Option.map_some, List.map_cons]
      exact .cons (hf start span) ih

theorem Emission.fragment_relocated (e : Emission) :
    RelocatedSome (e.fragment (some a)).mappings (e.fragment none).mappings := by
  cases e with
  | code text => exact .nil
  | mapped text origin mode capabilities =>
    simp only [fragment, Fragment.mapped_mappings]
    exact origin.resolve_relocated fun start span => .mappingTo start span _ _ _ _
  | quoted text origin capabilities mark =>
    simp only [fragment, Fragment.quoted_mappings]
    exact (origin.resolve_relocated fun start span => .mappingTo start span _ _ _ _).append
      (origin.resolve_relocated fun start span =>
        (Relocated.mappingTo start span _ _ _ _).shift 1)
  | announced text origin =>
    exact origin.resolve_relocated fun start span => .mappingTo start span _ _ _ _
  | tag name => exact .nil
  | slot name var => exact .nil

theorem assemble_relocated (es : List Emission) :
    RelocatedSome (assemble (some a) es).mappings (assemble none es).mappings := by
  induction es with
  | nil => exact .nil
  | cons e es ih =>
    simp only [assemble, Fragment.append_mappings, Emission.fragment_text]
    exact e.fragment_relocated.append (ih.shift _)

/-- A template is projected in the same way with an outline and without one. Its text, tags and
slots are the same; of the mappings without an outline some may be left out, and the others keep
their order and all but the place where the original starts. -/
theorem project_independent_of_outline (root : List Template.Node) (outline markup : Text) :
    let aligned := project (some (.ofTexts outline markup)) root
    let plain := project none root
    aligned.text = plain.text ∧ aligned.tags = plain.tags ∧ aligned.slots = plain.slots ∧
      ∃ kept, kept.Sublist plain.mappings ∧ List.Forall₂ Relocated aligned.mappings kept := by
  refine ⟨?_, rfl, rfl, ?_⟩
  · simp only [project, assemble_text]
  · obtain ⟨kept, hkept, hsub⟩ := List.sublistForall₂_iff.1 (assemble_relocated _)
    exact ⟨kept, hsub, hkept⟩

end TemplateProjection.Code
