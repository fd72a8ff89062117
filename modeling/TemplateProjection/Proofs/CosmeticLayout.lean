import TemplateProjection.Proofs.PrintedEnds
import TemplateProjection.Proofs.Reindenting
import TemplateProjection.Proofs.RespacedTrees

/-! Laying markup out as its outline is laid out changes blanks and nothing else. -/
namespace TemplateProjection

open Text

namespace Outline

variable {a : Alignment} {offset : Nat} {line line' markup : Text}

/-- A line keeps its content, and the line feed in front of it is a blank as well. -/
theorem reindentLine?_respaced (hblanks : ∀ c ∈ line, isBlank c → isAsciiBlank c)
    (h : reindentLine? a offset line = some line') :
    Respaced ('\n' :: line) ('\n' :: line') := by
  have hfeed : isAsciiBlank '\n' := by decide
  simp only [reindentLine?] at h
  split at h
  · obtain ⟨before, -, h⟩ := Option.bind_eq_some_iff.1 h
    obtain ⟨indent, hindent, h⟩ := Option.bind_eq_some_iff.1 h
    cases h
    have hold : ∀ c ∈ '\n' :: line.takeWhile isBlank, isAsciiBlank c := by
      refine List.forall_mem_cons.2 ⟨hfeed, fun c hc => ?_⟩
      exact hblanks c (( List.takeWhile_prefix isBlank).subset hc) (List.mem_takeWhile_imp hc)
    have hnew : ∀ c ∈ '\n' :: indent, isAsciiBlank c := by
      refine List.forall_mem_cons.2 ⟨hfeed, fun c hc => ?_⟩
      rcases (Bool.or_eq_true _ _).mp (trailingIndent?_chars hindent c hc) with hc | hc
      · rw [beq_iff_eq.1 hc]
        decide
      · rw [beq_iff_eq.1 hc]
        decide
    have hcontent : Respaced line.trimStart line.trimStart :=
      .refl fun c hc => hblanks c ((trimStart_suffix line).subset hc)
    have hline : '\n' :: line = '\n' :: line.takeWhile isBlank ++ line.trimStart :=
      congrArg ('\n' :: ·) List.takeWhile_append_dropWhile.symm
    rw [hline, ← List.cons_append]
    exact .blanks hold (by simp) hnew (by simp) hcontent
  · cases h
    exact .blank hfeed hfeed (.refl hblanks)

theorem reindentLines?_respaced {lines lines' : List Text}
    (hblanks : ∀ line ∈ lines, ∀ c ∈ line, isBlank c → isAsciiBlank c)
    (h : reindentLines? a offset lines = some lines') :
    Respaced (stack lines) (stack lines') := by
  induction lines generalizing offset lines' with
  | nil =>
    cases h
    exact .nil
  | cons line lines ih =>
    obtain ⟨hline, hlines⟩ := List.forall_mem_cons.1 hblanks
    simp only [reindentLines?] at h
    obtain ⟨first, hfirst, h⟩ := Option.bind_eq_some_iff.1 h
    obtain ⟨rest, hrest, h⟩ := Option.bind_eq_some_iff.1 h
    cases h
    exact (reindentLine?_respaced hline hfirst).append (ih hlines hrest)

/-- Line feeds between the lines, and one in front, which is a blank that trimming drops. -/
theorem trimStart_stack {lines : List Text} (h : lines ≠ []) :
    trimStart (stack lines) = trimStart (join ['\n'] lines) := by
  obtain ⟨line, lines, rfl⟩ := List.exists_cons_of_ne_nil h
  rw [join_eq_stack, stack_cons, List.cons_append]
  exact List.dropWhile_cons_of_pos (by decide)

/-- Whatever indentations are found, the lines differ from the markup in blanks only. -/
theorem trim_respaced {lines : List Text} (hend : ∀ c ∈ markup.getLast?, ¬ isBlank c)
    (hblanks : ∀ c ∈ markup, isBlank c → isAsciiBlank c)
    (h : reindentLines? a offset (split '\n' markup) = some lines) :
    Respaced markup.trimStart (trim (join ['\n'] lines)) := by
  have hstack := reindentLines?_respaced (fun line hline c hc =>
    hblanks c ((infix_of_mem_split hline).subset hc)) h
  have hne : lines ≠ [] := by
    rintro rfl
    have hnil := hstack.symm.eq_nil
    obtain ⟨line, rest, hsplit⟩ := List.exists_cons_of_ne_nil (split_ne_nil '\n' markup)
    rw [hsplit] at hnil
    cases hnil
  have htrim := hstack.trimStart
  rw [trimStart_stack (split_ne_nil '\n' markup), trimStart_stack hne, join_split] at htrim
  have hkept : trimEnd markup.trimStart = markup.trimStart := by
    refine trimEnd_eq_self fun c hc => hend c ?_
    obtain ⟨w, hw⟩ := trimStart_suffix markup
    rw [← hw, List.getLast?_append, hc]
    rfl
  exact hkept ▸ htrim.trimEnd

/-- The lines laid out anew have the tree of the markup. -/
theorem condenseAll_parse_lines {lines : List Text} (hend : ∀ c ∈ markup.getLast?, ¬ isBlank c)
    (hblanks : ∀ c ∈ markup, isBlank c → isAsciiBlank c)
    (h : reindentLines? a offset (split '\n' markup) = some lines) :
    Markup.condenseAll (Markup.parse (trim (join ['\n'] lines))) =
      Markup.condenseAll (Markup.parse markup) := by
  have hrespaced := (trim_respaced hend hblanks h).trimStart
  rw [trimStart_eq_self (not_isBlank_head_trimStart markup)] at hrespaced
  exact Markup.condenseAll_parse_eq hrespaced.symm

/-- Laying a markup out changes its blanks and nothing else: whatever the outline, and whatever
places are found in it for the lines, the tree stays the same. The markup must not end in a blank,
and printed markup never does. -/
theorem reindent?_keeps_tree :
    (∀ t, (∀ c ∈ (Markup.prettyPrint (Markup.parse t)).getLast?, ¬ isBlank c) ∧
      ∀ c ∈ (Markup.prettyPrint (Markup.normalizeAll (Markup.parse t))).getLast?, ¬ isBlank c) ∧
    ∀ markup : Text, (∀ c ∈ markup.getLast?, ¬ isBlank c) →
      (∀ c ∈ markup, isBlank c → isAsciiBlank c) →
      (∀ outline laidOut, reindent? outline markup = some laidOut →
        Markup.condenseAll (Markup.parse laidOut) = Markup.condenseAll (Markup.parse markup)) ∧
      ∀ a offset lines, reindentLines? a offset (split '\n' markup) = some lines →
        Markup.condenseAll (Markup.parse (trim (join ['\n'] lines))) =
          Markup.condenseAll (Markup.parse markup) := by
  refine ⟨fun t => ⟨Markup.prettyPrint_last (Markup.closed_parse t),
    Markup.prettyPrint_last (Markup.closed_normalizeAll (Markup.closed_parse t))⟩,
    fun markup hend hblanks => ⟨fun outline laidOut h => ?_, fun _ _ _ h => ?_⟩⟩
  · obtain ⟨lines, hlines, hjoin⟩ := Option.bind_eq_some_iff.1 h
    cases hjoin
    exact condenseAll_parse_lines hend hblanks hlines
  · exact condenseAll_parse_lines hend hblanks h

/-- Lines move inside a comment and inside a quoted value. -/
theorem reindent?_keeps_tree_moved :
    reindent? "// x\n\ty\np\n b\">".toList
        "<!-- x\n   y -->\n<p title=\"a\n    b\">\none</p>".toList =
      some "<!-- x\n\ty -->\n<p title=\"a\n b\">\none</p>".toList ∧
    Markup.condenseAll
        (Markup.parse "<!-- x\n\ty -->\n<p title=\"a\n b\">\none</p>".toList) =
      Markup.condenseAll
        (Markup.parse "<!-- x\n   y -->\n<p title=\"a\n    b\">\none</p>".toList) := by
  have h : reindent? "// x\n\ty\np\n b\">".toList
        "<!-- x\n   y -->\n<p title=\"a\n    b\">\none</p>".toList =
      some "<!-- x\n\ty -->\n<p title=\"a\n b\">\none</p>".toList := by decide +kernel
  have hlast : "<!-- x\n   y -->\n<p title=\"a\n    b\">\none</p>".toList.getLast? = some '>' := by
    decide +kernel
  have hblanks : "<!-- x\n   y -->\n<p title=\"a\n    b\">\none</p>".toList.all
      (fun c => !isBlank c || isAsciiBlank c) := by decide +kernel
  refine ⟨h, (reindent?_keeps_tree.2 _ (fun c hc => ?_) fun c hc hblank => ?_).1 _ _ h⟩
  · rw [hlast, Option.mem_some_iff] at hc
    exact hc ▸ by decide
  · simpa [hblank] using List.all_eq_true.1 hblanks c hc

end Outline

end TemplateProjection
