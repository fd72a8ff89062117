import Mathlib.Data.List.DropRight
import TemplateProjection.Proofs.Words

/-! Blocks of text: trimmed lines, up to the last that is not empty. -/
namespace TemplateProjection.Text

variable {t w l : Text} {c : Char} {ls : List Text}

/-- The lines without blanks at their ends, the empty ones left out. -/
def solidLines (t : Text) : List Text := t.trimmedLines.filter (!·.isEmpty)

/-- The lines of a block. -/
def blockPieces (t : Text) : List Text := t.trimmedLines.rdropWhile List.isEmpty

def block (t : Text) : Text := join ['\n'] t.blockPieces

@[simp]
theorem solidLines_nil : solidLines [] = [] := rfl

theorem solidLines_append_feed (s t : Text) :
    solidLines (s ++ '\n' :: t) = solidLines s ++ solidLines t := by
  simp only [solidLines, trimmedLines, split_append_cons, List.map_append, List.filter_append]

theorem solidLines_join (ls : List Text) : solidLines (join ['\n'] ls) = ls.flatMap solidLines := by
  induction ls with
  | nil => rfl
  | cons l ls ih =>
    cases ls with
    | nil => simp
    | cons l' ls =>
      rw [join_cons _ (by simp), List.append_assoc, List.singleton_append, solidLines_append_feed,
        ih]
      rfl

theorem trimmedLines_line (h : '\n' ∉ l) : trimmedLines l = [l.trim] := by
  rw [trimmedLines, split_eq_singleton h, List.map_singleton]

theorem feed_not_mem_of_trimmedLines (h : trimmedLines t = [l]) : '\n' ∉ t := by
  obtain ⟨piece, hpiece, -⟩ := List.map_eq_singleton_iff.1 h
  have hjoin := join_split '\n' t
  rw [hpiece, join_singleton] at hjoin
  rw [← hjoin]
  exact not_mem_of_mem_split (hpiece ▸ List.mem_cons_self)

/-- What counts of a line is its trimmed text. -/
theorem solidLines_line (h : '\n' ∉ l) :
    solidLines l = if l.trim.isEmpty then [] else [l.trim] := by
  rw [solidLines, trimmedLines_line h]
  cases hempty : l.trim.isEmpty <;> simp [hempty]

theorem solidLines_congr {l' : Text} (h : '\n' ∉ l) (h' : '\n' ∉ l') (htrim : l.trim = l'.trim) :
    solidLines l = solidLines l' := by
  rw [solidLines_line h, solidLines_line h', htrim]

theorem feed_not_mem_trim (h : '\n' ∉ l) : '\n' ∉ l.trim :=
  fun hfeed => h ((trim_isInfix l).subset hfeed)

theorem solidLines_stack (s : Text) (ls : List Text) :
    solidLines (s ++ stack ls) = solidLines s ++ ls.flatMap solidLines := by
  rw [← join_eq_stack, solidLines_join, List.flatMap_cons]

theorem solidLines_cons_blank (hc : isBlank c) (t : Text) : solidLines (c :: t) = solidLines t := by
  by_cases hfeed : c = '\n'
  · rw [hfeed]
    exact solidLines_append_feed [] t
  · obtain ⟨l, ls, rfl, hl, -⟩ := exists_eq_stack t
    have hline : '\n' ∉ c :: l := by simp [hl, Ne.symm hfeed]
    have htrim : trim (c :: l) = trim l :=
      trim_blank_append (List.forall_mem_singleton.2 hc) l
    rw [← List.cons_append, solidLines_stack, solidLines_stack, solidLines_congr hline hl htrim]

theorem solidLines_blank_append (hw : ∀ c ∈ w, isBlank c) (t : Text) :
    solidLines (w ++ t) = solidLines t := by
  induction w with
  | nil => rfl
  | cons c w ih =>
    obtain ⟨hc, hw⟩ := List.forall_mem_cons.1 hw
    rw [List.cons_append, solidLines_cons_blank hc, ih hw]

theorem solidLines_of_blank (hw : ∀ c ∈ w, isBlank c) : solidLines w = [] := by
  simpa using solidLines_blank_append hw []

theorem solidLines_line_append (hl : '\n' ∉ l) (hw : ∀ c ∈ w, isBlank c) :
    solidLines (l ++ w) = solidLines l := by
  obtain ⟨l', ls, rfl, hl', -⟩ := exists_eq_stack w
  obtain ⟨hend, hbelow⟩ := List.forall_mem_append.1 hw
  have hnone : ls.flatMap solidLines = [] := by
    rw [List.flatMap_eq_nil_iff]
    intro m hm
    exact solidLines_of_blank fun c hc =>
      hbelow c (List.mem_flatMap.2 ⟨m, hm, List.mem_cons_of_mem _ hc⟩)
  rw [← List.append_assoc, solidLines_stack, hnone, List.append_nil]
  exact solidLines_congr (by simp [hl, hl']) hl (trim_append_blank l hend)

theorem solidLines_append_blank (t : Text) (hw : ∀ c ∈ w, isBlank c) :
    solidLines (t ++ w) = solidLines t := by
  obtain ⟨l, ls, rfl, hl, hls⟩ := exists_eq_stack t
  cases ls using List.reverseRecOn with
  | nil => simpa using solidLines_line_append hl hw
  | append_singleton ls last =>
    have hlast : '\n' ∉ last := hls last (by simp)
    have hfeed : l ++ stack (ls ++ [last]) = (l ++ stack ls) ++ '\n' :: last := by simp
    rw [hfeed, List.append_assoc _ ('\n' :: last), List.cons_append, solidLines_append_feed,
      solidLines_append_feed, solidLines_line_append hlast hw]

theorem solidLines_trimStart (t : Text) : solidLines t.trimStart = solidLines t :=
  apply_trimStart (fun _ t hw => solidLines_blank_append hw t) t

theorem solidLines_trimEnd (t : Text) : solidLines t.trimEnd = solidLines t :=
  apply_trimEnd (fun t _ => solidLines_append_blank t) t

theorem flatMap_filter_isEmpty {α : Type} {f : Text → List α} (h : f [] = []) (ls : List Text) :
    (ls.filter (!·.isEmpty)).flatMap f = ls.flatMap f := by
  induction ls with
  | nil => rfl
  | cons l ls ih =>
    cases l with
    | nil => simpa [h] using ih
    | cons c l => simpa using ih

theorem flatMap_rdropWhile {α : Type} {f : Text → List α} (h : f [] = []) (ls : List Text) :
    (ls.rdropWhile List.isEmpty).flatMap f = ls.flatMap f := by
  have hrest : (ls.rtakeWhile List.isEmpty).flatMap f = [] := by
    rw [List.flatMap_eq_nil_iff]
    intro l hl
    rw [List.isEmpty_iff.1 (List.mem_rtakeWhile_imp hl), h]
  calc (ls.rdropWhile List.isEmpty).flatMap f
    _ = (ls.rdropWhile List.isEmpty ++ ls.rtakeWhile List.isEmpty).flatMap f := by
      rw [List.flatMap_append, hrest, List.append_nil]
    _ = ls.flatMap f := by rw [List.rdropWhile_append_rtakeWhile]

/-- A trimmed line is a block. -/
theorem block_line (hfeed : '\n' ∉ l) (h : Trimmed l) (hne : l ≠ []) : l.block = l := by
  rw [block, blockPieces, trimmedLines_line hfeed, h.trim_eq, List.rdropWhile_singleton,
    if_neg (by simpa using hne), join_singleton]

theorem trimmed_of_mem_trimmedLines (h : l ∈ t.trimmedLines) : Trimmed l := by
  obtain ⟨piece, -, rfl⟩ := List.mem_map.1 h
  exact trimmed_trim piece

theorem feed_not_mem_of_mem_trimmedLines (h : l ∈ t.trimmedLines) : '\n' ∉ l := by
  obtain ⟨piece, hpiece, rfl⟩ := List.mem_map.1 h
  exact feed_not_mem_trim (not_mem_of_mem_split hpiece)

theorem words_trimmedLines (t : Text) : t.trimmedLines.flatMap words = words t := by
  simp only [trimmedLines, List.flatMap_map, words_trim]
  rw [← words_join, join_split]

theorem words_block (t : Text) : words t.block = words t := by
  calc words t.block
    _ = t.blockPieces.flatMap words := words_join _
    _ = t.trimmedLines.flatMap words := flatMap_rdropWhile rfl _
    _ = words t := words_trimmedLines t

theorem solidLines_block (t : Text) : solidLines t.block = solidLines t := by
  calc solidLines t.block
    _ = t.blockPieces.flatMap solidLines := solidLines_join _
    _ = t.trimmedLines.flatMap solidLines := flatMap_rdropWhile rfl _
    _ = (split '\n' t).flatMap solidLines := by
      rw [trimmedLines, List.flatMap_map]
      refine List.flatMap_congr fun l hl => ?_
      have hfeed := not_mem_of_mem_split hl
      exact solidLines_congr (feed_not_mem_trim hfeed) hfeed (trimmed_trim l).trim_eq
    _ = solidLines t := by rw [← solidLines_join, join_split]

theorem infix_of_mem_trimmedLines (h : l ∈ t.trimmedLines) : l <:+: t := by
  obtain ⟨piece, hpiece, rfl⟩ := List.mem_map.1 h
  exact (trim_isInfix piece).trans (infix_of_mem_split hpiece)

theorem words_solidLines (t : Text) : t.solidLines.flatMap words = words t := by
  rw [solidLines, flatMap_filter_isEmpty words_nil, words_trimmedLines]

theorem solidLines_eq_nil_iff : solidLines t = [] ↔ words t = [] := by
  constructor
  · intro h
    rw [← words_solidLines, h, List.flatMap_nil]
  · intro h
    exact solidLines_of_blank (words_eq_nil_iff.1 h)

theorem flatMap_solidLines (t : Text) : t.solidLines.flatMap solidLines = t.solidLines := by
  have hline : ∀ l ∈ t.solidLines, solidLines l = [l] := by
    intro l hl
    obtain ⟨hmem, hne⟩ := List.mem_filter.1 hl
    have htrim := (trimmed_of_mem_trimmedLines hmem).trim_eq
    rw [solidLines_line (feed_not_mem_of_mem_trimmedLines hmem), htrim,
      if_neg (by simpa using hne)]
  rw [List.flatMap_congr hline, List.flatMap_singleton']

/-- The solid lines and nothing else. -/
def tidy (t : Text) : Text := join ['\n'] t.solidLines

theorem solidLines_tidy (t : Text) : solidLines t.tidy = solidLines t := by
  rw [tidy, solidLines_join, flatMap_solidLines]

theorem words_tidy (t : Text) : words t.tidy = words t := by
  rw [tidy, words_join, words_solidLines]

/-- A text's lines, trimmed, and without the empty ones. -/
theorem filter_trim_lines (t : Text) : (t.lines.map trim).filter (!·.isEmpty) = t.solidLines := by
  have hfilter : ∀ ls : List Text, (ls.map trim).filter (!·.isEmpty) =
      ls.flatMap fun l => [l.trim].filter (!·.isEmpty) := by
    intro ls
    induction ls with
    | nil => rfl
    | cons l ls ih =>
      rw [List.map_cons, List.flatMap_cons, ← ih, ← List.filter_append, List.singleton_append]
  have hreturn : ∀ l : Text, trim (l ++ ['\r']) = trim l :=
    fun l => trim_append_blank l (List.forall_mem_singleton.2 (by decide))
  rw [hfilter, flatMap_lines rfl fun l => by rw [hreturn], ← hfilter]
  rfl

theorem mem_trimmedLines_of_mem_blockPieces (h : l ∈ t.blockPieces) : l ∈ t.trimmedLines :=
  (List.rdropWhile_prefix _ _).subset h

theorem mem_of_mem_block (h : c ∈ t.block) (hc : c ≠ '\n') : c ∈ t := by
  rcases mem_join h with hfeed | ⟨l, hl, hmem⟩
  · exact absurd (List.mem_singleton.1 hfeed) hc
  · exact (infix_of_mem_trimmedLines (mem_trimmedLines_of_mem_blockPieces hl)).subset hmem

theorem infix_of_infix_block {needle : Text} (hne : needle ≠ []) (hfeed : '\n' ∉ needle)
    (h : needle <:+: t.block) : needle <:+: t := by
  obtain ⟨l, hl, hin⟩ := exists_infix_of_infix_join hne hfeed h
  exact hin.trans (infix_of_mem_trimmedLines (mem_trimmedLines_of_mem_blockPieces hl))

end TemplateProjection.Text
