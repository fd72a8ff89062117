import TemplateProjection.Proofs.Nesting

/-! The attributes of an opening tag stand one behind another inside the tag, each around its name
and its value. -/
namespace TemplateProjection

namespace Excerpt

variable {e f g : Excerpt}

/-- The second excerpt is an end of the first. -/
structure Leaves (e f : Excerpt) : Prop where
  start : e.start ≤ f.start
  stop : f.stop = e.stop

theorem Leaves.refl (e : Excerpt) : Leaves e e := ⟨Nat.le_refl _, rfl⟩

theorem Leaves.trans (h : Leaves e f) (h' : Leaves f g) : Leaves e g :=
  ⟨Nat.le_trans h.start h'.start, h'.stop.trans h.stop⟩

theorem leaves_of_append {lead rest : Text} (h : lead ++ rest = e.text) :
    Leaves e ⟨e.start + lead.byteLength, rest⟩ := by
  refine ⟨Nat.le_add_right _ _, ?_⟩
  simp only [Excerpt.stop, ← h, Text.byteLength_append]
  omega

theorem leaves_drop (n : Nat) (e : Excerpt) : Leaves e (e.drop n) :=
  leaves_of_append (List.take_append_drop n e.text)

theorem leaves_dropWhile (p : Char → Bool) (e : Excerpt) : Leaves e (e.dropWhile p) :=
  leaves_of_append List.takeWhile_append_dropWhile

theorem leaves_breakAt (stop : Text → Bool) (e : Excerpt) : Leaves e (e.breakAt stop).2 :=
  leaves_of_append (Text.breakAt_append stop e.text)

end Excerpt

namespace Markup

open Excerpt

variable {e : Excerpt} {a : Attribute}

theorem readValue_leaves (e : Excerpt) :
    Leaves e (readValue e).2 ∧ e.start ≤ (readValue e).1.start ∧
      (readValue e).1.stop ≤ (readValue e).2.start := by
  simp only [readValue]
  split
  · next hnil =>
    refine ⟨.refl e, Nat.le_refl _, ?_⟩
    simp [Excerpt.stop, hnil]
  · split
    · next q _ _ _ =>
      have hquote := leaves_drop 1 e
      have hclose := leaves_drop 1 ((e.drop 1).dropWhile (· != q))
      exact ⟨(hquote.trans (leaves_dropWhile _ _)).trans hclose, hquote.start, hclose.start⟩
    · exact ⟨leaves_dropWhile _ _, Nat.le_refl _, Nat.le_refl _⟩

/-- The name stands first, the value behind it, and the attribute is around both. -/
structure Attribute.Encloses (a : Attribute) : Prop where
  start : a.span.start = a.nameSpan.start
  name : a.nameSpan.stop ≤ a.span.stop
  value : ∀ v ∈ a.value, a.nameSpan.stop ≤ v.span.start ∧ v.span.stop ≤ a.span.stop
  nonempty : a.name ≠ []

theorem attribute?_encloses {name : Excerpt} {value : Option Excerpt} {stop : Nat}
    (h : attribute? name value stop = some a) (hname : name.stop ≤ stop)
    (hvalue : ∀ v ∈ value, name.stop ≤ v.start ∧ v.stop ≤ stop) :
    a.Encloses ∧ a.span.start = name.start ∧ a.span.stop = stop := by
  simp only [attribute?] at h
  split at h
  · cases h
  · next hempty =>
    cases h
    have hstart : name.start ≤ stop := Nat.le_trans (Nat.le_add_right _ _) hname
    have hstop : (Span.between name.start stop).stop = stop := Span.stop_between hstart
    refine ⟨⟨rfl, ?_, ?_, by simpa using hempty⟩, rfl, hstop⟩
    · rw [hstop]
      exact hname
    · intro v hv
      obtain ⟨w, hw, rfl⟩ := Option.map_eq_some_iff.1 hv
      rw [hstop]
      exact hvalue w hw

/-- An attribute stands between where reading starts and where it goes on. -/
theorem readAttribute_leaves (e : Excerpt) :
    Leaves e (readAttribute e).2 ∧ ∀ a ∈ (readAttribute e).1,
      a.Encloses ∧ e.start ≤ a.span.start ∧ a.span.stop ≤ (readAttribute e).2.start := by
  have hrest := leaves_breakAt endsAttributeName e
  simp only [readAttribute]
  split
  · have hequals := ((leaves_dropWhile isAsciiBlank (e.breakAt endsAttributeName).2).trans
      (leaves_drop 1 _)).trans (leaves_dropWhile isAsciiBlank _)
    obtain ⟨hleaves, hvalue, hstop⟩ := readValue_leaves
      ((((e.breakAt endsAttributeName).2.dropWhile isAsciiBlank).drop 1).dropWhile isAsciiBlank)
    refine ⟨(hrest.trans hequals).trans hleaves, fun a ha => ?_⟩
    obtain ⟨hencloses, hat, hend⟩ := attribute?_encloses ha (hequals.trans hleaves).start (by
      rintro v ⟨⟩
      exact ⟨Nat.le_trans hequals.start hvalue, hstop⟩)
    exact ⟨hencloses, Nat.le_of_eq hat.symm, Nat.le_of_eq hend⟩
  · refine ⟨hrest, fun a ha => ?_⟩
    obtain ⟨hencloses, hat, hend⟩ := attribute?_encloses ha (Nat.le_refl _) (by simp)
    exact ⟨hencloses, Nat.le_of_eq hat.symm, Nat.le_of_eq hend⟩

/-- Attributes are read one behind another. -/
theorem readAttributes_inOrder (e : Excerpt) :
    Span.InOrder e.start ((readAttributes e).1.map Attribute.span) e.stop ∧
      ∀ a ∈ (readAttributes e).1, a.Encloses := by
  have hskip : ∀ {e : Excerpt} {spans : List Span},
      Span.InOrder (e.drop 1).start spans (e.drop 1).stop → Span.InOrder e.start spans e.stop := by
    intro e spans h
    have hleaves := leaves_drop 1 e
    rw [hleaves.stop] at h
    exact h.widen hleaves.start
  fun_induction readAttributes e with
  | case1 e => exact ⟨Nat.le_add_right _ _, by simp⟩
  | case2 e c t he _ _ ih => exact ⟨hskip ih.1, ih.2⟩
  | case3 => exact ⟨Nat.le_add_right _ _, by simp⟩
  | case4 => exact ⟨Nat.le_add_right _ _, by simp⟩
  | case5 e t he _ _ _ _ ih => exact ⟨hskip ih.1, ih.2⟩
  | case6 e c t he _ _ _ _ _ _ attributes closed heq ih =>
    obtain ⟨hleaves, hone⟩ := readAttribute_leaves e
    rw [heq, hleaves.stop] at ih
    cases hread : (readAttribute e).1 with
    | none => exact ⟨ih.1.widen hleaves.start, ih.2⟩
    | some a =>
      obtain ⟨hencloses, hstart, hstop⟩ := hone a hread
      exact ⟨⟨hstart, ih.1.widen hstop⟩, List.forall_mem_cons.2 ⟨hencloses, ih.2⟩⟩

/-- The attributes of a tag stand one behind another, between its name and its end. -/
theorem OpenTag.ofExcerpt_inOrder {u : Text} (he : e.text = '<' :: u) :
    Span.InOrder (e.start + 1 + (OpenTag.ofExcerpt e).name.byteLength)
      ((OpenTag.ofExcerpt e).attributes.map Attribute.span) e.stop := by
  have hmark : (e.drop 1).start = e.start + 1 := by
    simp only [Excerpt.drop, he]
    rfl
  have horder := (readAttributes_inOrder
    ((e.drop 1).dropWhile fun c => !(isAsciiBlank c || c == '>' || c == '/'))).1
  rw [((leaves_drop 1 e).trans (leaves_dropWhile _ _)).stop] at horder
  rw [← hmark]
  exact horder

theorem OpenTag.ofExcerpt_encloses (e : Excerpt) :
    ∀ a ∈ (OpenTag.ofExcerpt e).attributes, a.Encloses :=
  (readAttributes_inOrder _).2

end Markup

end TemplateProjection
