import Mathlib.Data.List.DropRight
import Mathlib.Data.List.Forall2
import TemplateProjection.Outline.Item
import TemplateProjection.Proofs.Locations
import TemplateProjection.Proofs.Words

/-! The text of a block, line by line. A block keeps the content of every line whose indentation can
be cut where the shared indentation ends, and empties the others. -/
namespace TemplateProjection

namespace Text

theorem not_mem_of_mem_lines {t l : Text} (h : l ∈ t.lines) : '\n' ∉ l := by
  simp only [lines, List.mem_append, List.mem_map, List.mem_filter, Option.mem_toList] at h
  rcases h with ⟨piece, hpiece, rfl⟩ | ⟨hlast, -⟩
  · have hfeed := not_mem_of_mem_split (List.dropLast_subset _ hpiece)
    cases hbefore : before? ['\r'] piece with
    | none => exact hfeed
    | some u =>
      rw [← append_of_before? hbefore] at hfeed
      exact fun hmem => hfeed (List.mem_append_left _ hmem)
  · exact not_mem_of_mem_split (List.mem_of_getLast? hlast)

/-- A text of one-byte characters can be cut at every offset. -/
theorem cut?_of_narrow {t : Text} (h : ∀ c ∈ t, c.utf8Size = 1) {n : Nat}
    (hn : n ≤ t.byteLength) : (t.cut? n).isSome := by
  induction t generalizing n with
  | nil =>
    have hzero : n = 0 := Nat.le_zero.1 hn
    rw [hzero, cut?, Option.isSome_some]
  | cons c t ih =>
    cases n with
    | zero => rfl
    | succ n =>
      have hc := h c List.mem_cons_self
      rw [byteLength_cons] at hn
      rw [cut?, if_pos (by omega), Option.isSome_map]
      exact ih (fun d hd => h d (List.mem_cons_of_mem c hd)) (by omega)

/-- A cut of a text within its start is a cut of the start. -/
theorem isSome_cut?_of_append {s t : Text} {n : Nat} (h : ((s ++ t).cut? n).isSome)
    (hn : n ≤ s.byteLength) : (s.cut? n).isSome := by
  obtain ⟨⟨before, after⟩, hcut⟩ := Option.isSome_iff_exists.1 h
  obtain ⟨happ, hlen⟩ := append_of_cut? hcut
  obtain ⟨rest, rfl⟩ : before <+: s :=
    isPrefix_of_byteLength_le ⟨after, happ⟩ (List.prefix_append s t) (by omega)
  rw [← hlen, cut?_byteLength, Option.isSome_some]

end Text

namespace Outline

namespace Line

variable {l : Text} {n : Nat}

theorem text_ofText (l : Text) : (ofText l).text = l.trimEnd := List.takeWhile_append_dropWhile

theorem content_ofText (l : Text) : (ofText l).content = l.trim := by
  have hlast : ∀ c ∈ l.trimEnd.trimStart.getLast?, ¬ isBlank c := by
    intro c hc
    obtain ⟨lead, hlead⟩ := Text.trimStart_suffix l.trimEnd
    apply Text.not_isBlank_last_trimEnd l
    rw [← hlead]
    exact List.mem_getLast?_append_of_mem_getLast? hc
  rw [← Text.trim_trimEnd, Text.trim, Text.trimEnd_eq_self hlast]
  rfl

theorem isBlank_of_mem_indentation : ∀ c ∈ (ofText l).indentation, isBlank c :=
  fun _ hc => List.mem_takeWhile_imp hc

/-- The first `n` bytes of the indentation can be cut off. An empty line has nothing to lose. -/
def hasCut (n : Nat) (line : Line) : Bool := line.isEmpty || (line.indentation.cut? n).isSome

theorem trim_dropBytes (h : (ofText l).hasCut n) : ((ofText l).dropBytes n).trim = l.trim := by
  rw [hasCut, Bool.or_eq_true] at h
  rcases h with hempty | hcut
  · have htrim : l.trim = [] := by
      rw [← content_ofText]
      exact List.isEmpty_iff.1 hempty
    have htext : (ofText l).text = [] := by
      rw [text_ofText]
      exact Text.trimEnd_of_blank (Text.words_eq_nil_iff.1 (Text.trim_eq_nil_iff.1 htrim))
    rw [htrim, dropBytes, htext]
    cases n <;> rfl
  · obtain ⟨⟨before, after⟩, hcut⟩ := Option.isSome_iff_exists.1 hcut
    obtain ⟨happ, hlen⟩ := Text.append_of_cut? hcut
    have hafter : ∀ c ∈ after, isBlank c := by
      intro c hc
      apply isBlank_of_mem_indentation (l := l)
      rw [← happ]
      exact List.mem_append_right before hc
    have hdrop : (ofText l).dropBytes n = after ++ (ofText l).content := by
      rw [dropBytes, text, ← happ, List.append_assoc, Text.from?, ← hlen, Text.cut?_byteLength]
      rfl
    rw [hdrop, Text.trim_blank_append hafter, content_ofText, (Text.trimmed_trim l).trim_eq]

theorem dropBytes_of_not_hasCut (h : ¬ (ofText l).hasCut n)
    (hn : ¬ (ofText l).isEmpty → n ≤ (ofText l).indent) :
    (ofText l).dropBytes n = [] ∧ l.trim ≠ [] := by
  rw [hasCut, Bool.or_eq_true, not_or] at h
  obtain ⟨hempty, hcut⟩ := h
  constructor
  · have hnone : (ofText l).text.cut? n = none := by
      rw [← Option.not_isSome_iff_eq_none]
      exact fun hsome => hcut (Text.isSome_cut?_of_append hsome (hn hempty))
    rw [dropBytes, Text.from?, hnone]
    rfl
  · rw [← content_ofText]
    exact fun hcontent => hempty (List.isEmpty_iff.2 hcontent)

theorem not_mem_dropBytes {c : Char} (h : c ∉ l) : c ∉ (ofText l).dropBytes n := by
  rw [dropBytes, Text.from?, text_ofText]
  cases hcut : l.trimEnd.cut? n with
  | none => exact List.not_mem_nil
  | some parts =>
    obtain ⟨happ, -⟩ := Text.append_of_cut? hcut
    intro hc
    apply h
    apply (Text.trimEnd_isPrefix l).subset
    rw [← happ]
    exact List.mem_append_right _ hc

end Line

variable {lines : List Line} {line : Line} {indent : Nat}

theorem blockLines_isPrefix (indent : Nat) (lines : List Line) :
    blockLines indent lines <+: lines :=
  (List.rdropWhile_prefix Line.isEmpty _).trans (List.takeWhile_prefix _)

theorem isBelow_of_mem_blockLines (h : line ∈ blockLines indent lines) : line.isBelow indent :=
  List.mem_takeWhile_imp ((List.rdropWhile_prefix Line.isEmpty _).subset h)

theorem blockLines_append_afterBlock (indent : Nat) (lines : List Line) :
    blockLines indent lines ++ afterBlock indent lines = lines := by
  obtain ⟨rest, hrest⟩ := blockLines_isPrefix indent lines
  have hafter : afterBlock indent lines = rest := by
    rw [afterBlock]
    nth_rewrite 2 [← hrest]
    exact List.drop_left
  rw [hafter, hrest]

/-- A block leaves over the empty lines at its end, and the lines from the first not below. -/
theorem afterBlock_eq (indent : Nat) (lines : List Line) :
    afterBlock indent lines = (lines.takeWhile (Line.isBelow indent)).rtakeWhile Line.isEmpty ++
      lines.dropWhile (Line.isBelow indent) := by
  apply List.append_cancel_left
  calc blockLines indent lines ++ afterBlock indent lines
    _ = lines := blockLines_append_afterBlock indent lines
    _ = lines.takeWhile (Line.isBelow indent) ++ lines.dropWhile (Line.isBelow indent) :=
      List.takeWhile_append_dropWhile.symm
    _ = (blockLines indent lines ++
          (lines.takeWhile (Line.isBelow indent)).rtakeWhile Line.isEmpty) ++
          lines.dropWhile (Line.isBelow indent) :=
      congrArg (· ++ _) List.rdropWhile_append_rtakeWhile.symm
    _ = _ := List.append_assoc _ _ _

/-- The line after a block, empty lines aside, is not below the line above the block. -/
theorem not_isBelow_afterBlock (indent : Nat) (lines : List Line) :
    ∀ line ∈ (afterBlock indent lines).find? (!·.isEmpty), ¬ line.isBelow indent := by
  have hgap : ((lines.takeWhile (Line.isBelow indent)).rtakeWhile Line.isEmpty).find?
      (!·.isEmpty) = none := by
    rw [List.find?_eq_none]
    intro line hline
    simpa using List.mem_rtakeWhile_imp hline
  intro line hline
  rw [afterBlock_eq, List.find?_append, hgap, Option.none_or] at hline
  have hnot := List.head?_dropWhile_not (Line.isBelow indent) lines
  cases hrest : lines.dropWhile (Line.isBelow indent) with
  | nil => simp [hrest] at hline
  | cons first rest =>
    have hfirst : ¬ first.isBelow indent := by simpa [hrest] using hnot
    have hsolid : first.isEmpty = false := by
      rw [Line.isBelow, Bool.or_eq_true, not_or] at hfirst
      exact Bool.eq_false_iff.2 hfirst.1
    rw [hrest, List.find?_cons, hsolid] at hline
    cases hline
    exact hfirst

theorem commonIndent_le (hmem : line ∈ lines) (h : ¬ line.isEmpty) :
    commonIndent lines ≤ line.indent := by
  have hindent : line.indent ∈ (lines.filter (!·.isEmpty)).map Line.indent :=
    List.mem_map_of_mem (List.mem_filter.2 ⟨hmem, by simpa using h⟩)
  rw [commonIndent]
  cases hmin : ((lines.filter (!·.isEmpty)).map Line.indent).min? with
  | none => exact Nat.zero_le _
  | some least => exact (List.min?_eq_some_iff.1 hmin).2 _ hindent

/-- A line whose indentation has one-byte characters only can be cut at the common indent. -/
theorem hasCut_of_narrow (hmem : line ∈ lines)
    (h : ∀ c ∈ line.indentation, c.utf8Size = 1) : line.hasCut (commonIndent lines) := by
  rw [Line.hasCut, Bool.or_eq_true]
  by_cases hempty : line.isEmpty
  · exact Or.inl hempty
  · exact Or.inr (Text.cut?_of_narrow h (commonIndent_le hmem hempty))

/-- The block below a line takes the deeper lines up to the first that is not deeper. Its text has
one line for each of them. A line that can be cut at the common indent keeps its content, as does
every line indented by one-byte blanks. Of a line that has no cut there, because a blank of several
bytes stands across it, nothing is left. -/
theorem blockText_line_by_line (t : Text) (start indent : Nat) :
    let source := t.lines.drop start
    let lines := source.map Line.ofText
    let block := blockLines indent lines
    let keeps := fun l : Text => (Line.ofText l).hasCut (commonIndent block)
    block ++ afterBlock indent lines = lines ∧ (∀ line ∈ block, line.isBelow indent) ∧
    (∀ line ∈ (afterBlock indent lines).find? (!·.isEmpty), ¬ line.isBelow indent) ∧
    ∃ pieces,
      blockText indent lines = Text.join ['\n'] pieces ∧ (∀ piece ∈ pieces, '\n' ∉ piece) ∧
      List.Forall₂
        (fun (l piece : Text) =>
          (keeps l → piece.trim = l.trim) ∧ (¬ keeps l → piece = [] ∧ l.trim ≠ []) ∧
          ((∀ c ∈ (Line.ofText l).indentation, c.utf8Size = 1) → keeps l))
        (source.take block.length) pieces := by
  intro source lines block keeps
  have hblock : block = (source.take block.length).map Line.ofText := by
    rw [List.map_take]
    exact List.prefix_iff_eq_take.1 (blockLines_isPrefix indent lines)
  have hmem : ∀ l ∈ source.take block.length, Line.ofText l ∈ block := by
    intro l hl
    rw [hblock]
    exact List.mem_map_of_mem hl
  have hpieces : block.map (Line.dropBytes (commonIndent block)) =
      (source.take block.length).map fun l => (Line.ofText l).dropBytes (commonIndent block) := by
    nth_rewrite 2 [hblock]
    exact List.map_map
  refine ⟨blockLines_append_afterBlock indent lines, fun _ => isBelow_of_mem_blockLines,
    not_isBelow_afterBlock indent lines, _, congrArg (Text.join ['\n']) hpieces, ?_, ?_⟩
  · intro piece hpiece
    obtain ⟨l, hl, rfl⟩ := List.mem_map.1 hpiece
    apply Line.not_mem_dropBytes
    exact Text.not_mem_of_mem_lines (List.mem_of_mem_drop (List.mem_of_mem_take hl))
  · rw [List.forall₂_map_right_iff, List.forall₂_same]
    intro l hl
    refine ⟨Line.trim_dropBytes, fun hkeeps => ?_, hasCut_of_narrow (hmem l hl)⟩
    exact Line.dropBytes_of_not_hasCut hkeeps (commonIndent_le (hmem l hl))

/-- The second line is indented by one blank of three bytes, the first by two of one byte. -/
theorem blockText_wide_blank :
    let source := Text.lines "  one\n　two".toList
    blockText 0 (source.map Line.ofText) = "one\n".toList ∧
      source.map Text.trim = ["one".toList, "two".toList] ∧
      compile "p.\n  one\n　two".toList = "<p>one\n</p>".toList := by
  decide +kernel

end Outline

end TemplateProjection
