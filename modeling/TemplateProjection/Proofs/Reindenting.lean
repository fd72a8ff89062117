import TemplateProjection.Outline.Layout
import TemplateProjection.Proofs.Blocks
import TemplateProjection.Proofs.Lists
import TemplateProjection.Proofs.Search

/-! Reindenting changes the blanks in front of lines and nothing else. -/
namespace TemplateProjection

namespace Text

variable {l l' w x : Text} {ls ls' : List Text}

/-- The second line has the content of the first, behind other blanks. -/
def SameContent (l l' : Text) : Prop :=
  ∃ w, l' = w ++ l.trimStart ∧ (∀ c ∈ w, isBlank c) ∧ '\n' ∉ w

theorem SameContent.refl (h : '\n' ∉ l) : SameContent l l := by
  refine ⟨l.takeWhile isBlank, List.takeWhile_append_dropWhile.symm, ?_, ?_⟩
  · exact fun c hc => List.mem_takeWhile_imp hc
  · exact fun hfeed => h (List.IsPrefix.subset ( List.takeWhile_prefix isBlank) hfeed)

theorem SameContent.feed (h : SameContent l l') (hl : '\n' ∉ l) : '\n' ∉ l' := by
  obtain ⟨w, rfl, -, hw⟩ := h
  intro hfeed
  rcases List.mem_append.1 hfeed with hfeed | hfeed
  · exact hw hfeed
  · exact hl ((trimStart_suffix l).subset hfeed)

theorem SameContent.words_eq (h : SameContent l l') : words l' = words l := by
  obtain ⟨w, rfl, hw, -⟩ := h
  rw [words_blank_append hw, words_trimStart]

theorem SameContent.trim_eq (h : SameContent l l') : trim l' = trim l := by
  obtain ⟨w, rfl, hw, -⟩ := h
  rw [trim_blank_append hw, trim, trim, trimStart_eq_self (not_isBlank_head_trimStart l)]

/-- Where the content starts is known. -/
theorem SameContent.of_content (hw : ∀ c ∈ w, isBlank c) (hx : ∀ c ∈ x.head?, ¬ isBlank c)
    (h : SameContent (w ++ x) l') : ∃ w', l' = w' ++ x ∧ (∀ c ∈ w', isBlank c) ∧ '\n' ∉ w' := by
  obtain ⟨w', rfl, hblank, hfeed⟩ := h
  refine ⟨w', ?_, hblank, hfeed⟩
  rw [trimStart_blank_append hw, trimStart_eq_self hx]

/-- The end of a line is kept. -/
theorem SameContent.of_append (hx : ∀ c ∈ x.head?, ¬ isBlank c) (h : SameContent (l ++ x) l') :
    ∃ l'', l' = l'' ++ x ∧ SameContent l l'' := by
  obtain ⟨w, rfl, hw⟩ := h
  exact ⟨w ++ l.trimStart, by rw [trimStart_append_of_head l hx, List.append_assoc], w, rfl, hw⟩

theorem SameContent.mem {c : Char} (h : SameContent l l') (hc : c ∈ l') (hblank : ¬ isBlank c) :
    c ∈ l := by
  obtain ⟨w, rfl, hw, -⟩ := h
  rcases List.mem_append.1 hc with hc | hc
  · exact absurd (hw c hc) hblank
  · exact (trimStart_suffix l).subset hc

theorem SameContent.isInfix {c : Char} {needle : Text} (h : SameContent l l') (hc : ¬ isBlank c)
    (hin : c :: needle <:+: l') : c :: needle <:+: l := by
  obtain ⟨w, rfl, hw, -⟩ := h
  induction w with
  | nil => exact hin.trans (trimStart_suffix l).isInfix
  | cons d w ih =>
    obtain ⟨hd, hw⟩ := List.forall_mem_cons.1 hw
    rcases List.infix_cons_iff.1 hin with hstart | hin
    · obtain ⟨u, hu⟩ := hstart
      exact absurd ((List.cons.inj hu).1 ▸ hd) hc
    · exact ih hin hw

theorem SameContent.solidLines_eq (h : SameContent l l') (hl : '\n' ∉ l) :
    solidLines l' = solidLines l :=
  solidLines_congr (h.feed hl) hl h.trim_eq

end Text

namespace Outline

variable {a : Alignment} {offset : Nat} {line line' : Text} {c : Char}

theorem trailingIndent?_chars {t indent : Text} (h : trailingIndent? t = some indent) :
    ∀ c ∈ indent, isIndentChar c := by
  unfold trailingIndent? at h
  split at h
  · split at h
    · cases h
      exact fun c hc => List.mem_takeWhile_imp (List.mem_reverse.1 hc)
    · cases h
  · next hnil =>
    cases h
    exact fun c hc => List.dropWhile_eq_nil_iff.1 hnil c (List.mem_reverse.2 hc)

theorem reindentLine?_sameContent (hline : '\n' ∉ line)
    (h : reindentLine? a offset line = some line') : line.SameContent line' := by
  simp only [reindentLine?] at h
  split at h
  · obtain ⟨before, -, h⟩ := Option.bind_eq_some_iff.1 h
    obtain ⟨indent, hindent, h⟩ := Option.bind_eq_some_iff.1 h
    cases h
    have hchars := trailingIndent?_chars hindent
    refine ⟨indent, rfl, fun c hc => ?_, fun hfeed => absurd (hchars '\n' hfeed) (by decide)⟩
    rcases (Bool.or_eq_true _ _).mp (hchars c hc) with hc | hc
    · rw [beq_iff_eq.1 hc]
      decide
    · rw [beq_iff_eq.1 hc]
      decide
  · cases h
    exact .refl hline

theorem trailingIndent?_isSome {t : Text} (h : ∀ c ∈ t, c.utf8Size = 1) :
    ∃ indent, trailingIndent? t = some indent := by
  unfold trailingIndent?
  split
  · next c rest hcons =>
    have hc : c ∈ t := List.mem_reverse.1
      ((List.dropWhile_suffix isIndentChar).subset (hcons ▸ List.mem_cons_self))
    exact ⟨_, if_pos (h c hc)⟩
  · exact ⟨t, rfl⟩

/-- What is found in the outline stands behind a part of it. -/
theorem upTo?_of_locate? {needle : Text} {found : Nat} (h : a.locate? needle offset = some found) :
    ∃ before, a.outline.upTo? found = some before ∧ before <+: a.outline := by
  obtain ⟨before, after, houtline, hbefore, -⟩ :=
    Text.slice?_eq_some_iff.1 (Alignment.slice?_of_locate? h)
  have hcut := Text.cut?_byteLength before (needle ++ after)
  rw [hbefore, ← List.append_assoc, ← houtline] at hcut
  exact ⟨before, by rw [Text.upTo?, hcut, Option.map_some], needle ++ after, by simp [houtline]⟩

/-- In an outline of one-byte characters every line finds an indentation. -/
theorem reindentLine?_isSome (ha : ∀ c ∈ a.outline, c.utf8Size = 1) (offset : Nat) (line : Text) :
    ∃ line', reindentLine? a offset line = some line' := by
  simp only [reindentLine?]
  split
  · next found hfound =>
    obtain ⟨before, hupTo, houtline⟩ := upTo?_of_locate? hfound
    obtain ⟨indent, hindent⟩ := trailingIndent?_isSome (t := before) fun c hc =>
      ha c (houtline.subset hc)
    exact ⟨indent ++ line.trimStart, by simp [hupTo, hindent]⟩
  · exact ⟨line, rfl⟩

theorem reindentLines?_spec (ha : ∀ c ∈ a.outline, c.utf8Size = 1) {lines : List Text}
    (hlines : ∀ line ∈ lines, '\n' ∉ line) (offset : Nat) :
    ∃ lines', reindentLines? a offset lines = some lines' ∧
      List.Forall₂ Text.SameContent lines lines' := by
  induction lines generalizing offset with
  | nil => exact ⟨[], rfl, .nil⟩
  | cons line lines ih =>
    obtain ⟨hline, hlines⟩ := List.forall_mem_cons.1 hlines
    obtain ⟨first, hfirst⟩ := reindentLine?_isSome ha offset line
    obtain ⟨rest, hrest, hsame⟩ := ih hlines (offset + line.byteLength + 1)
    refine ⟨first :: rest, ?_, .cons (reindentLine?_sameContent hline hfirst) hsame⟩
    simp [reindentLines?, hfirst, hrest]

/-- Reindented markup has the lines of the markup, each behind other blanks. -/
theorem reindent?_spec {outline : Text} (h : ∀ c ∈ outline, c.utf8Size = 1) (markup : Text) :
    ∃ lines, reindent? outline markup = some (Text.trim (Text.join ['\n'] lines)) ∧
      List.Forall₂ Text.SameContent (Text.split '\n' markup) lines := by
  have hfeed : ∀ line ∈ Text.split '\n' markup, '\n' ∉ line := fun _ => Text.not_mem_of_mem_split
  obtain ⟨lines, hlines, hsame⟩ :=
    reindentLines?_spec (a := Alignment.ofTexts outline markup) h hfeed 0
  exact ⟨lines, by simp [reindent?, hlines], hsame⟩

end Outline

end TemplateProjection
