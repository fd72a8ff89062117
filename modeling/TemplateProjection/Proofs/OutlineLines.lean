import TemplateProjection.Proofs.OutlineReading

/-! The lines of an outline of a plain forest are single lines of ASCII characters. -/
namespace TemplateProjection.Outline

open Markup (isElementName isPrintable isAttributeNameChar PlainText PlainComment)

variable {c : Char} {l t : Text} {ls : List Text} {style : Style} {d : Nat}

/-- The characters of an outline within a line. -/
def isLineChar (c : Char) : Bool := isPrintable c || c == '\t'

structure CleanLine (l : Text) : Prop where
  chars : ∀ c ∈ l, isLineChar c
  ne_nil : l ≠ []

theorem isLineChar_of_isAttributeNameChar (h : isAttributeNameChar c) : isLineChar c :=
  ascii_imp isAttributeNameChar isLineChar (by decide) (Markup.toNat_lt_of_isAttributeNameChar h) h

theorem CleanLine.feed (h : CleanLine l) : '\n' ∉ l :=
  fun hfeed => absurd (h.chars '\n' hfeed) (by decide)

theorem toNat_lt_of_isLineChar (h : isLineChar c) : c.toNat < 128 := by
  rcases (Bool.or_eq_true _ _).mp h with h | h
  · have hle := of_decide_eq_true ((Bool.and_eq_true _ _).mp h).2
    omega
  · rw [beq_iff_eq.1 h]
    decide

theorem isLineChar_indent (style : Style) (d : Nat) : ∀ c ∈ style.indent d, isLineChar c := by
  intro c hc
  rcases style.eq_of_mem_indent d c hc with rfl | rfl <;> decide

theorem ne_nil_indent (h : style.Indents) (d : Nat) : style.indent (d + 1) ≠ [] := by
  intro hnil
  have hlt := Style.width_lt h (Nat.lt_succ_self d)
  rw [Style.width, Style.width, hnil] at hlt
  exact absurd hlt (Nat.not_lt_zero _)

/-- An indented line is clean if its content is. -/
theorem CleanLine.indent (style : Style) (d : Nat) (hchars : ∀ c ∈ l, isLineChar c) (hne : l ≠ []) :
    CleanLine (style.indent d ++ l) :=
  ⟨List.forall_mem_append.2 ⟨isLineChar_indent style d, hchars⟩, by simp [hne]⟩

theorem CleanLine.piece (h : style.Indents) (d : Nat) (hchars : ∀ c ∈ l, isLineChar c) :
    CleanLine (style.indent (d + 1) ++ l) :=
  ⟨List.forall_mem_append.2 ⟨isLineChar_indent style _, hchars⟩, by simp [ne_nil_indent h d]⟩

/-- The lines of a clean text are clean. -/
theorem isLineChar_of_mem_trimmedLines (ht : ∀ c ∈ t, isPrintable c ∨ c = '\n')
    (hl : l ∈ t.trimmedLines) : ∀ c ∈ l, isLineChar c := by
  intro c hc
  obtain ⟨piece, hpiece, rfl⟩ := List.mem_map.1 hl
  have hmem := (Text.trim_isInfix piece).subset hc
  rcases ht c ((Text.infix_of_mem_split hpiece).subset hmem) with hprint | rfl
  · exact (Bool.or_eq_true _ _).mpr (Or.inl hprint)
  · exact absurd hmem (Text.not_mem_of_mem_split hpiece)

theorem isLineChar_attributeText {a : Markup.Attribute} (h : a.Plain) :
    ∀ c ∈ attributeText a, isLineChar c := by
  obtain ⟨q, v, hquote, -, hplain, htext, -⟩ := attributeText_eq h
  have hname : ∀ c ∈ a.name, isLineChar c := fun c hc =>
    isLineChar_of_isAttributeNameChar (List.all_eq_true.1 ((Bool.and_eq_true _ _).mp h.name).2 c hc)
  have hvalue : ∀ c ∈ v, isLineChar c := fun c hc =>
    (Bool.or_eq_true _ _).mpr (Or.inl (hplain.printable c hc))
  have hquotes : "\"'\x60".toList.all isLineChar := by decide
  have hq : isLineChar q := List.all_eq_true.1 hquotes q hquote
  have hequals : isLineChar '=' := by decide
  rw [htext]
  simpa [or_imp, forall_and, hq, hequals] using ⟨hname, hvalue⟩

theorem isLineChar_headText {tag : Markup.OpenTag} (h : isElementName tag.name)
    (hattributes : ∀ a ∈ tag.attributes, a.Plain) : ∀ c ∈ headText tag, isLineChar c := by
  have hname : ∀ c ∈ tag.name, isLineChar c := fun c hc =>
    isLineChar_of_isAttributeNameChar (Markup.isAttributeNameChar_of_mem h hc)
  by_cases hnone : tag.attributes = []
  · rw [headText, hnone]
    exact hname
  · have hlist : ∀ c ∈ Text.join ", ".toList (tag.attributes.map attributeText), isLineChar c := by
      intro c hc
      rcases Text.mem_join hc with hsep | ⟨l, hl, hc⟩
      · have hseps : ", ".toList.all isLineChar := by decide
        exact List.all_eq_true.1 hseps c hsep
      · obtain ⟨a, ha, rfl⟩ := List.mem_map.1 hl
        exact isLineChar_attributeText (hattributes a ha) c hc
    have hopen : isLineChar '(' := by decide
    have hclose : isLineChar ')' := by decide
    rw [headText_eq tag hnone]
    simpa [or_imp, forall_and, hopen, hclose] using ⟨hname, hlist⟩

theorem clean_pieces (h : style.Indents) (ht : ∀ c ∈ t, isPrintable c ∨ c = '\n') :
    ∀ l ∈ t.trimmedLines.map (style.indent (d + 1) ++ ·), CleanLine l := by
  intro l hl
  obtain ⟨piece, hpiece, rfl⟩ := List.mem_map.1 hl
  exact .piece h d (isLineChar_of_mem_trimmedLines ht hpiece)

theorem clean_textLines (h : style.Indents) (ht : ∀ c ∈ t, isPrintable c ∨ c = '\n') :
    ∀ l ∈ textLines style d t, CleanLine l := by
  unfold textLines
  split
  · exact List.forall_mem_cons.2 ⟨.indent style d (List.all_eq_true.1 (by decide)) (by decide),
      clean_pieces h ht⟩
  · next hfeed =>
    have hchars : ∀ c ∈ t, isLineChar c := by
      intro c hc
      rcases ht c hc with hprint | rfl
      · exact (Bool.or_eq_true _ _).mpr (Or.inl hprint)
      · exact absurd (by simpa using hc) hfeed
    have hpipe : ∀ c ∈ "| ".toList, isLineChar c := List.all_eq_true.1 (by decide)
    intro l hl
    rw [List.mem_singleton.1 hl, List.append_assoc]
    exact .indent style d (List.forall_mem_append.2 ⟨hpipe, hchars⟩) (by simp)

theorem clean_commentLines (h : style.Indents) (ht : ∀ c ∈ t, isPrintable c ∨ c = '\n') :
    ∀ l ∈ commentLines style d t, CleanLine l := by
  unfold commentLines
  split
  · next line hline =>
    have hchars := isLineChar_of_mem_trimmedLines ht (hline ▸ List.mem_singleton_self line)
    have hslashes : ∀ c ∈ "// ".toList, isLineChar c := List.all_eq_true.1 (by decide)
    intro l hl
    rw [List.mem_singleton.1 hl, List.append_assoc]
    exact .indent style d (List.forall_mem_append.2 ⟨hslashes, hchars⟩) (by simp)
  · exact List.forall_mem_cons.2 ⟨.indent style d (List.all_eq_true.1 (by decide)) (by decide),
      clean_pieces h ht⟩

theorem leadingText?_chars {nodes : List Markup.Node} (hnodes : ∀ node ∈ nodes, node.Plain)
    (h : leadingText? nodes = some t) : ∀ c ∈ t, isLineChar c := by
  fun_induction leadingText? nodes with
  | case1 => cases h
  | case2 u span nodes _ ih => exact ih (List.forall_mem_cons.1 hnodes).2 h
  | case3 => cases h
  | case4 u span nodes hempty hfeed =>
    cases h
    cases hnodes _ List.mem_cons_self with
    | text hplain =>
      have hline : u.trim ∈ u.trim.trimmedLines := by
        rw [Text.trimmedLines_line (by simpa using hfeed), (Text.trimmed_trim u).trim_eq]
        exact List.mem_singleton_self _
      exact isLineChar_of_mem_trimmedLines
        (fun c hc => hplain.printable c ((Text.trim_isInfix u).subset hc)) hline
  | case5 u span nodes ih => exact ih (List.forall_mem_cons.1 hnodes).2 h
  | case6 => cases h

mutual

theorem clean_nodeLines (h : style.Indents) (d : Nat) :
    ∀ node : Markup.Node, node.Plain → ∀ l ∈ nodeLines style d node, CleanLine l
  | .element tag children _ _, hplain => by
    cases hplain with
    | element hname hattributes hleaf hapart hchildren =>
      have hhead := isLineChar_headText hname hattributes
      obtain ⟨c, t, hcons, -⟩ := headText_cons hname
      rw [nodeLines]
      split
      · next t hlead =>
        have hchars : ∀ c ∈ t, isLineChar c := by
          split at hlead
          · exact leadingText?_chars hchildren hlead
          · cases hlead
        have hspace : isLineChar ' ' := by decide
        refine List.forall_mem_cons.2 ⟨?_, clean_linesAfterLead h (d + 1) children hchildren⟩
        rw [List.append_assoc]
        exact .indent style d
          (List.forall_mem_append.2 ⟨hhead, List.forall_mem_cons.2 ⟨hspace, hchars⟩⟩) (by simp)
      · exact List.forall_mem_cons.2 ⟨.indent style d hhead (by simp [hcons]),
          clean_allLines h (d + 1) children hchildren⟩
  | .text t _, hplain => by
    cases hplain with
    | text hplain =>
      rw [nodeLines]
      split
      · simp
      · exact clean_textLines h fun c hc => hplain.printable c ((Text.trim_isInfix t).subset hc)
  | .comment data _, hplain => by
    cases hplain with
    | comment hplain => exact clean_commentLines h hplain.printable
  | .declaration _ _, hplain => by cases hplain

theorem clean_allLines (h : style.Indents) (d : Nat) :
    ∀ nodes : List Markup.Node, (∀ node ∈ nodes, node.Plain) →
      ∀ l ∈ allLines style d nodes, CleanLine l
  | [], _ => by simp [allLines]
  | node :: nodes, hplain => by
    obtain ⟨hnode, hnodes⟩ := List.forall_mem_cons.1 hplain
    rw [allLines]
    exact List.forall_mem_append.2 ⟨clean_nodeLines h d node hnode, clean_allLines h d nodes hnodes⟩

theorem clean_linesAfterLead (h : style.Indents) (d : Nat) :
    ∀ nodes : List Markup.Node, (∀ node ∈ nodes, node.Plain) →
      ∀ l ∈ linesAfterLead style d nodes, CleanLine l
  | [], _ => by simp [linesAfterLead]
  | .text t _ :: nodes, hplain => by
    obtain ⟨-, hnodes⟩ := List.forall_mem_cons.1 hplain
    rw [linesAfterLead]
    split
    · exact clean_linesAfterLead h d nodes hnodes
    · exact clean_allLines h d nodes hnodes
  | .element _ _ _ _ :: nodes, hplain =>
    clean_linesAfterLead h d nodes (List.forall_mem_cons.1 hplain).2
  | .comment _ _ :: nodes, hplain =>
    clean_linesAfterLead h d nodes (List.forall_mem_cons.1 hplain).2
  | .declaration _ _ :: nodes, hplain =>
    clean_linesAfterLead h d nodes (List.forall_mem_cons.1 hplain).2

end

theorem Line.ofText_return (l : Text) : ofText ((Text.before? ['\r'] l).getD l) = ofText l := by
  cases h : Text.before? ['\r'] l with
  | none => rfl
  | some u =>
    have htrim : l.trimEnd = u.trimEnd := by
      rw [← Text.append_of_before? h]
      exact Text.dropTrailing_concat u (by decide)
    rw [Option.getD_some, ofText, ofText, htrim]

/-- Clean lines are the lines of the text that they are joined to. -/
theorem linesOf_join (h : ∀ l ∈ ls, CleanLine l) :
    linesOf (Text.join ['\n'] ls) = ls.map Line.ofText := by
  cases ls using List.reverseRecOn with
  | nil => rfl
  | append_singleton ls l =>
    have hsplit := Text.split_join (fun l hl => (h l hl).feed) (by simp : ls ++ [l] ≠ [])
    have hl : l.isEmpty = false := by simpa using (h l (by simp)).ne_nil
    have hstrip : Line.ofText ∘ (fun l => (Text.before? ['\r'] l).getD l) = Line.ofText :=
      funext Line.ofText_return
    simp only [linesOf, Text.lines, hsplit, List.dropLast_concat, List.getLast?_concat,
      Option.toList_some, List.map_append, List.map_map, hstrip]
    simp [hl]

/-- Reading the outline of a plain forest gives its items. -/
theorem parse_ofMarkup {nodes : List Markup.Node} (h : style.Indents)
    (hplain : ∀ node ∈ nodes, node.Plain) : parse (ofMarkup style nodes) = itemsOfAll nodes := by
  obtain ⟨-, es, hes, hoff⟩ := outlines_allLines h 0 nodes hplain [] (by simp [Closed])
  have hentries : entries (linesOf (ofMarkup style nodes)) = es := by
    rw [ofMarkup, linesOf_join (clean_allLines h 0 nodes hplain)]
    have hnil : entries [] = [] := by rw [entries]
    simpa [hnil] using hes
  rw [parse, hentries, hoff.nest_eq]

theorem isLineChar_ofMarkup {nodes : List Markup.Node} (h : style.Indents)
    (hplain : ∀ node ∈ nodes, node.Plain) :
    ∀ c ∈ ofMarkup style nodes, isLineChar c ∨ c = '\n' := by
  intro c hc
  rcases Text.mem_join hc with hfeed | ⟨l, hl, hc⟩
  · exact Or.inr (List.mem_singleton.1 hfeed)
  · exact Or.inl ((clean_allLines h 0 nodes hplain l hl).chars c hc)

end TemplateProjection.Outline
