import TemplateProjection.Proofs.Reindenting

/-!
When markup can be laid out as its outline is. The indentation of a line is cut off one byte behind
the start of the character before it, so a character of several bytes in that place, and nothing
else, is in the way.
-/
namespace TemplateProjection

/-- One byte behind the start of a character there is a cut if the character has just this byte. -/
theorem Text.cut?_one_behind (before : Text) (c : Char) (after : Text) :
    Text.cut? (before ++ c :: after) (before.byteLength + 1) =
      if c.utf8Size = 1 then some (before ++ [c], after) else none := by
  have hpos := c.utf8Size_pos
  split
  · next hone =>
    have hcut := cut?_byteLength (before ++ [c]) after
    rw [byteLength_append, byteLength_cons, byteLength_nil, hone, List.append_assoc] at hcut
    exact hcut
  · next hmore =>
    induction before with
    | nil =>
      have hinside : ¬ c.utf8Size ≤ 0 + 1 := by omega
      simpa [cut?] using fun h => absurd h hinside
    | cons d before ih =>
      have hle : d.utf8Size ≤ byteLength (d :: before) + 1 := by
        simp only [byteLength_cons]
        omega
      have hrest : byteLength (d :: before) + 1 - d.utf8Size = byteLength before + 1 := by
        simp only [byteLength_cons]
        omega
      rw [List.cons_append, cut?, if_pos hle, hrest, ih, Option.map_none]

namespace Outline

variable {a : Alignment} {before : Text}

/-- Where the indentation at the end of a text is taken to start: one byte behind the start of the
last character that is neither a space nor a tab. -/
def indentStart (before : Text) : Nat :=
  let kept := before.dropTrailing isIndentChar
  if kept.isEmpty then 0 else Text.byteLength kept.dropLast + 1

/-- The text is all indentation, or a character stands in front of its indentation. -/
theorem indentStart_cases (before : Text) :
    (before.dropTrailing isIndentChar = [] ∧ indentStart before = 0 ∧
        trailingIndent? before = some before) ∨
      ∃ init c indent, before = init ++ c :: indent ∧
        before.dropTrailing isIndentChar = init ++ [c] ∧
        indentStart before = Text.byteLength init + 1 ∧
        trailingIndent? before = if c.utf8Size = 1 then some indent else none := by
  unfold trailingIndent? indentStart
  cases hkept : before.reverse.dropWhile isIndentChar with
  | nil =>
    exact Or.inl ⟨by simp [Text.dropTrailing, hkept], by simp [Text.dropTrailing, hkept], rfl⟩
  | cons c rest =>
    have htrail : before.dropTrailing isIndentChar = rest.reverse ++ [c] := by
      simp [Text.dropTrailing, hkept]
    have happ := Text.dropTrailing_append isIndentChar before
    rw [htrail, List.append_assoc, List.singleton_append] at happ
    exact Or.inr ⟨rest.reverse, c, _, happ.symm, htrail, by simp [htrail], rfl⟩

/-- The indentation starts between two characters, unless the one in front of it has several
bytes. -/
theorem cut?_indentStart (before rest : Text) :
    (Text.cut? (before ++ rest) (indentStart before)).isSome ↔
      ∀ c ∈ (before.dropTrailing isIndentChar).getLast?, c.utf8Size = 1 := by
  rcases indentStart_cases before with ⟨hnil, hstart, -⟩ | ⟨init, c, indent, happ, hkept, hstart, -⟩
  · simp [hnil, hstart, Text.cut?]
  · rw [hkept, hstart, happ, List.append_assoc, List.cons_append, Text.cut?_one_behind]
    by_cases hone : c.utf8Size = 1 <;> simp [hone]

/-- The indentation is what follows its start, if there is a cut. -/
theorem trailingIndent?_eq_from? (before : Text) :
    trailingIndent? before = before.from? (indentStart before) := by
  rcases indentStart_cases before with
    ⟨-, hstart, hindent⟩ | ⟨init, c, indent, happ, -, hstart, hindent⟩
  · rw [hindent, hstart, Text.from?, Text.cut?, Option.map_some]
  · rw [hindent, hstart, Text.from?, happ, Text.cut?_one_behind]
    split <;> rfl

theorem trailingIndent?_isSome_iff (before : Text) :
    (trailingIndent? before).isSome ↔
      ∀ c ∈ (before.dropTrailing isIndentChar).getLast?, c.utf8Size = 1 := by
  rw [trailingIndent?_eq_from?, Text.from?, Option.isSome_map, ← cut?_indentStart before [],
    List.append_nil]

/-- What precedes the text of a markup line in the outline, if it is found there. -/
def beforeLine? (a : Alignment) (offset : Nat) (line : Text) : Option Text :=
  (a.locate? (lineNeedle line.trimStart)
    (offset + Text.byteLength (line.takeWhile isBlank))).bind a.outline.upTo?

/-- What precedes in the outline each of the markup lines that are found there. -/
def beforeLines (a : Alignment) : (offset : Nat) → List Text → List Text
  | _, [] => []
  | offset, line :: lines =>
    (beforeLine? a offset line).toList ++ beforeLines a (offset + line.byteLength + 1) lines

theorem reindentLine?_isSome_iff (a : Alignment) (offset : Nat) (line : Text) :
    (reindentLine? a offset line).isSome ↔
      ∀ before ∈ beforeLine? a offset line, (trailingIndent? before).isSome := by
  simp only [reindentLine?, beforeLine?]
  split
  · next found hfound =>
    obtain ⟨before, hbefore, -⟩ := upTo?_of_locate? hfound
    simp only [hfound, hbefore, Option.bind_some, Option.mem_some_iff, forall_eq',
      Option.bind_eq_bind]
    cases trailingIndent? before <;> rfl
  · next hnone => simp [hnone]

theorem reindentLines?_isSome_iff (a : Alignment) (offset : Nat) (lines : List Text) :
    (reindentLines? a offset lines).isSome ↔
      ∀ before ∈ beforeLines a offset lines, (trailingIndent? before).isSome := by
  induction lines generalizing offset with
  | nil => simp [reindentLines?, beforeLines]
  | cons line lines ih =>
    have hline : (reindentLine? a offset line).isSome ↔
        ∀ before ∈ (beforeLine? a offset line).toList, (trailingIndent? before).isSome := by
      simp only [reindentLine?_isSome_iff, Option.mem_toList, Option.mem_def]
    rw [beforeLines, List.forall_mem_append, ← ih, ← hline, reindentLines?]
    cases reindentLine? a offset line <;>
      cases reindentLines? a (offset + line.byteLength + 1) lines <;> simp

theorem prefix_of_mem_beforeLines {offset : Nat} {lines : List Text}
    (h : before ∈ beforeLines a offset lines) : before <+: a.outline := by
  induction lines generalizing offset with
  | nil => cases h
  | cons line lines ih =>
    rcases List.mem_append.1 h with h | h
    · obtain ⟨found, hfound, hupTo⟩ := Option.bind_eq_some_iff.1 (Option.mem_toList.1 h)
      obtain ⟨before', hbefore', houtline⟩ := upTo?_of_locate? hfound
      obtain rfl := Option.some.inj (hbefore'.symm.trans hupTo)
      exact houtline
    · exact ih h

/-- The markup of an outline before it is laid out. -/
def printed (outline : Text) : Text :=
  Markup.prettyPrint (Markup.normalizeAll (Markup.parse (compile outline)))

/-- What precedes in the outline each line of its markup that is found there. -/
def beforeFound (outline : Text) : List Text :=
  beforeLines (.ofTexts outline (printed outline)) 0 ((printed outline).split '\n')

theorem toMarkup?_isSome (outline : Text) :
    (toMarkup? outline).isSome ↔
      ∀ before ∈ beforeFound outline, (trailingIndent? before).isSome := by
  rw [beforeFound, ← reindentLines?_isSome_iff, toMarkup?, ← printed, reindent?]
  cases reindentLines? (.ofTexts outline (printed outline)) 0 ((printed outline).split '\n') <;> rfl

/-- An outline has a markup just when, for each line found in it, the indentation starts between two
characters. It does unless a character of several bytes stands in front of the indentation, so an
outline of one-byte characters always has a markup. -/
theorem toMarkup?_isSome_iff (outline : Text) :
    ((toMarkup? outline).isSome ↔
      ∀ before ∈ beforeFound outline, (outline.cut? (indentStart before)).isSome) ∧
    (∀ before ∈ beforeFound outline, before <+: outline ∧
      ((outline.cut? (indentStart before)).isSome ↔
        ∀ c ∈ (before.dropTrailing isIndentChar).getLast?, c.utf8Size = 1)) ∧
    ((∀ c ∈ outline, c.utf8Size = 1) → (toMarkup? outline).isSome) := by
  have hcut : ∀ before ∈ beforeFound outline, before <+: outline ∧
      ((outline.cut? (indentStart before)).isSome ↔
        ∀ c ∈ (before.dropTrailing isIndentChar).getLast?, c.utf8Size = 1) := by
    intro before hbefore
    have houtline : before <+: outline := prefix_of_mem_beforeLines hbefore
    obtain ⟨rest, rfl⟩ := houtline
    exact ⟨List.prefix_append before rest, cut?_indentStart before rest⟩
  have hiff : (toMarkup? outline).isSome ↔
      ∀ before ∈ beforeFound outline, (outline.cut? (indentStart before)).isSome := by
    rw [toMarkup?_isSome]
    refine forall₂_congr fun before hbefore => ?_
    rw [trailingIndent?_isSome_iff, (hcut before hbefore).2]
  refine ⟨hiff, hcut, fun hone => hiff.2 fun before hbefore => ?_⟩
  obtain ⟨houtline, hlast⟩ := hcut before hbefore
  refine hlast.2 fun c hc => hone c (houtline.subset ?_)
  rw [← Text.dropTrailing_append isIndentChar before]
  exact List.mem_append_left _ (List.mem_of_getLast? hc)

/-- Before the line break stands an accented letter, and its second byte is no place to cut. -/
theorem toMarkup?_after_accent :
    toMarkup? "p é<br>".toList = none ∧ "p é".toList ∈ beforeFound "p é<br>".toList ∧
      indentStart "p é".toList = 3 ∧ Text.cut? "p é<br>".toList 3 = none := by
  decide +kernel

end Outline

end TemplateProjection
