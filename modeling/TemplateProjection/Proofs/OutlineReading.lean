import TemplateProjection.Proofs.AttributeLists
import TemplateProjection.Proofs.Offside

/-! Reading the outline of a plain forest gives the items of the forest. -/
namespace TemplateProjection.Outline

open Markup (isElementName exists_of_isElementName isMark_of_mem_elementName
  ne_nil_of_isElementName)

variable {c : Char} {t name rest content : Text} {lines : List Line} {style : Style} {d : Nat}

theorem readShorthands_of_ne (ids : Bool) (hdot : c ≠ '.') (hhash : c ≠ '#') (t : Text) :
    readShorthands ids (c :: t) = ([], c :: t) := by
  rw [readShorthands]
  simp [hdot, hhash]

theorem isNameChar_of_mem (h : isElementName name) : ∀ c ∈ name, isNameChar c := by
  intro c hc
  have hchar := Markup.isAlphanum_of_mem_elementName h hc
  simp only [isNameChar, hchar, Bool.true_or]

/-- A name with nothing or a space after it is a head. -/
theorem readHead_name (hname : isElementName name) (hrest : ∀ c ∈ rest.head?, c = ' ')
    (lines : List Line) : readHead (name ++ rest) lines = ⟨name, [], rest, lines⟩ := by
  have hstop : ∀ c ∈ rest.head?, ¬ isNameChar c := by
    intro c hc
    rw [hrest c hc]
    decide
  have hne : name.isEmpty = false := List.isEmpty_eq_false_iff.2 (ne_nil_of_isElementName hname)
  have hshorthands : ∀ ids, readShorthands ids rest = ([], rest) := by
    intro ids
    cases rest with
    | nil => rw [readShorthands]
    | cons c t =>
      have hc := hrest c rfl
      exact readShorthands_of_ne ids (by simp [hc]) (by simp [hc]) t
  have hlist : readList? rest lines = ⟨[], rest, lines⟩ := by
    unfold readList?
    split
    · cases hrest _ rfl
    · rfl
  simp only [readHead, takeWhile_append_of_head (isNameChar_of_mem hname) hstop,
    dropWhile_append_of_head (isNameChar_of_mem hname) hstop, hshorthands, hlist, hne]
  rw [readAttributes]
  rfl

/-- A name with an attribute list is a head, however many lines the list takes. -/
theorem readHead_list {inside : Text} {below : List Line} (hne : name ≠ [])
    (hname : ∀ c ∈ name, isNameChar c) (h : readList t lines = ⟨inside, [], below⟩) :
    readHead (name ++ '(' :: t) lines = ⟨name, readAttributes inside, [], below⟩ := by
  have hstop : ∀ c ∈ ('(' :: t).head?, ¬ isNameChar c := by
    rintro c ⟨⟩
    decide
  have hlist : readList? ('(' :: t) lines = ⟨inside, [], below⟩ := h
  have hnil : readShorthands false [] = ([], []) := by rw [readShorthands]
  have hempty : name.isEmpty = false := List.isEmpty_eq_false_iff.2 hne
  simp only [readHead, takeWhile_append_of_head hname hstop,
    dropWhile_append_of_head hname hstop,
    readShorthands_of_ne true (show '(' ≠ '.' by decide) (show '(' ≠ '#' by decide), hlist, hnil,
    hempty]
  rfl

theorem readHead_attributes {attributes : List Markup.Attribute} (hname : isElementName name)
    (h : ∀ a ∈ attributes, a.Plain) (lines : List Line) :
    readHead (name ++ '(' :: (Text.join ", ".toList (attributes.map attributeText) ++ [')']))
        lines =
      ⟨name, attributes.map attributeItem, [], lines⟩ := by
  have hclosing : closing? 1 none false
      (Text.join ", ".toList (attributes.map attributeText) ++ [')']) =
        some (Text.join ", ".toList (attributes.map attributeText), []) := by
    rw [Skips.attributeTexts h [')']]
    simp [closing?]
  have hlist : readList (Text.join ", ".toList (attributes.map attributeText) ++ [')']) lines =
      ⟨Text.join ", ".toList (attributes.map attributeText), [], lines⟩ := by
    unfold readList
    rw [hclosing]
  rw [readHead_list (ne_nil_of_isElementName hname) (isNameChar_of_mem hname) hlist,
    readAttributes_join h]

theorem readElement_head {attributes : List Attribute} {below : List Line}
    (h : readHead content lines = ⟨name, attributes, rest, below⟩)
    (hrest : ∀ c ∈ rest.head?, c = ' ') :
    readElement content lines = (⟨⟨name, attributes, false⟩, inlineText rest, false⟩, below) := by
  have hne : ∀ d, d ≠ ' ' → ∀ t, (readHead content lines).rest ≠ d :: t := by
    intro d hd t heq
    have hcons : rest = d :: t := by
      rw [h] at heq
      exact heq
    exact hd (hrest d (by rw [hcons]; rfl))
  rw [readElement]
  split
  · next heq => exact absurd heq (hne '.' (by decide) _)
  · next heq => exact absurd heq (hne '/' (by decide) _)
  · next heq => exact absurd heq (hne ':' (by decide) _)
  · rw [h]

/-- A line that starts with no mark of another kind of line is the line of an element. -/
theorem readEntry_of_ne {line : Line} (hcontent : line.content = c :: t) (hslash : c ≠ '/')
    (hpipe : c ≠ '|') (hlt : c ≠ '<') (hdot : line.content ≠ ['.']) (lines : List Line) :
    readEntry line lines =
      (some (elementEntry line.indent (readElement line.content lines).1
        (readElement line.content lines).2).1,
        (elementEntry line.indent (readElement line.content lines).1
          (readElement line.content lines).2).2) := by
  simp only [readEntry, hcontent] at hdot ⊢
  split
  · next heq => exact absurd (List.cons.inj heq).1 hslash
  · next heq => exact absurd (List.cons.inj heq).1 hslash
  · next heq => exact absurd (List.cons.inj heq).1 hpipe
  · next heq => exact absurd (List.cons.inj heq).1 hpipe
  · next heq => exact absurd heq hdot
  · next heq => exact absurd (List.cons.inj heq).1 hlt
  · rfl

/-- A line that starts with a letter is the line of an element. -/
theorem readEntry_element {line : Line} (hc : c.isAlpha) (hcontent : line.content = c :: t) :
    readEntry line lines =
      (some (elementEntry line.indent (readElement line.content lines).1
        (readElement line.content lines).2).1,
        (elementEntry line.indent (readElement line.content lines).1
          (readElement line.content lines).2).2) := by
  have hne : ∀ d : Char, d.isAlpha = false → c ≠ d := by
    rintro d hd rfl
    rw [hc] at hd
    cases hd
  apply readEntry_of_ne hcontent (hne '/' (by decide)) (hne '|' (by decide)) (hne '<' (by decide))
  intro hdot
  exact hne '.' (by decide) (List.cons.inj (hcontent.symm.trans hdot)).1

theorem entries_cons {line : Line} (h : line.isEmpty = false) (lines : List Line) :
    entries (line :: lines) =
      (readEntry line lines).1.toList ++ entries (readEntry line lines).2 := by
  rw [entries, h]
  rfl

/-- The lines at indent `n` outline the items, whatever follows at that indent or a lesser one. -/
def Outlines (n : Nat) (lines : List Line) (items : List Item) : Prop :=
  ∀ tail, Closed n tail → Closed n (lines ++ tail) ∧
    ∃ es, entries (lines ++ tail) = es ++ entries tail ∧ Offside n es items

namespace Outlines

variable {n m : Nat} {line : Line} {lines' : List Line} {items items' : List Item} {item : Item}

theorem nil : Outlines n [] [] := fun _ htail => ⟨htail, [], rfl, .nil⟩

theorem append (h : Outlines n lines items) (h' : Outlines n lines' items') :
    Outlines n (lines ++ lines') (items ++ items') := by
  intro tail htail
  obtain ⟨hclosed', es', hes', hoff'⟩ := h' tail htail
  obtain ⟨hclosed, es, hes, hoff⟩ := h (lines' ++ tail) hclosed'
  rw [List.append_assoc]
  exact ⟨hclosed, es ++ es', by rw [hes, hes', List.append_assoc], hoff.append hoff'⟩

/-- A line that takes the lines below it for itself. -/
theorem leaf (hline : line.isEmpty = false) (hindent : line.indent = n)
    (h : ∀ tail, Closed n tail → ∃ rest, readEntry line (lines ++ tail) =
      (some ⟨n, .leaf item⟩, rest) ∧ entries rest = entries tail) :
    Outlines n (line :: lines) [item] := by
  intro tail htail
  obtain ⟨rest, hread, hrest⟩ := h tail htail
  refine ⟨?_, [⟨n, .leaf item⟩], ?_, .leaf .nil⟩
  · rintro first ⟨⟩
    exact ⟨hline, Nat.le_of_eq hindent⟩
  · rw [List.cons_append, entries_cons hline, hread, hrest]
    rfl

/-- The line of an element, with the lines of its children below. -/
theorem parent {tag : Tag} {lead children : List Item} (hline : line.isEmpty = false)
    (hindent : line.indent = n) (hdeep : n < m)
    (hread : ∀ below, readEntry line below = (some ⟨n, .parent tag lead⟩, below))
    (h : Outlines m lines children) :
    Outlines n (line :: lines) [.element tag (lead ++ children)] := by
  intro tail htail
  have hmore : Closed m tail := fun first hfirst =>
    ⟨(htail first hfirst).1, Nat.le_trans (htail first hfirst).2 (Nat.le_of_lt hdeep)⟩
  obtain ⟨-, es, hes, hoff⟩ := h tail hmore
  refine ⟨?_, ⟨n, .parent tag lead⟩ :: (es ++ []), ?_, .parent hdeep hoff .nil⟩
  · rintro first ⟨⟩
    exact ⟨hline, Nat.le_of_eq hindent⟩
  · rw [List.cons_append, entries_cons hline, hread, hes, List.append_nil]
    rfl

end Outlines

theorem outlines_pipe {t : Text} :
    Outlines (style.width d) [⟨style.indent d, '|' :: ' ' :: t⟩] [.text t] :=
  .leaf rfl rfl fun tail _ => ⟨tail, rfl, rfl⟩

/-- A line that takes the text of the block below it. -/
theorem outlines_block {line : Line} (item : Text → Item) (h : style.Indents)
    (hline : line.isEmpty = false) (hindent : line.indent = style.width d)
    (hread : ∀ lines, readEntry line lines =
      (some ⟨line.indent, .leaf (item (blockText line.indent lines))⟩,
        afterBlock line.indent lines))
    (pieces : List Text) :
    Outlines (style.width d) (line :: pieces.map (Line.ofPiece style (d + 1)))
      [item (Text.join ['\n'] (pieces.rdropWhile List.isEmpty))] := by
  refine .leaf hline hindent fun tail htail => ?_
  have hlt := Style.width_lt h (Nat.lt_succ_self d)
  refine ⟨afterBlock (style.width d) (pieces.map (Line.ofPiece style (d + 1)) ++ tail), ?_, ?_⟩
  · rw [← blockText_pieces pieces hlt htail, ← hindent]
    exact hread _
  · rw [afterBlock_pieces pieces hlt htail]
    exact entries_empty fun piece hpiece => List.mem_rtakeWhile_imp hpiece

theorem outlines_textBlock (h : style.Indents) (pieces : List Text) :
    Outlines (style.width d) (⟨style.indent d, ['.']⟩ :: pieces.map (Line.ofPiece style (d + 1)))
      [.text (Text.join ['\n'] (pieces.rdropWhile List.isEmpty))] :=
  outlines_block .text h rfl rfl (fun _ => rfl) pieces

theorem readEntry_comment {line : Line} (hrest : ∀ c ∈ rest.head?, c ≠ '-')
    (hcontent : line.content = '/' :: '/' :: rest) :
    readEntry line lines =
      (some ⟨line.indent, .leaf (.comment (commentData rest (blockText line.indent lines)))⟩,
        afterBlock line.indent lines) := by
  simp only [readEntry, hcontent]
  split
  · next heq =>
    cases heq
    exact absurd rfl (hrest '-' rfl)
  · next heq =>
    cases heq
    rfl
  · next heq => cases heq
  · next heq => cases heq
  · next heq => cases heq
  · next heq => cases heq
  · next hslash _ _ _ _ => exact absurd rfl (hslash rest)

/-- A comment takes what follows on its line and the block below. -/
theorem outlines_comment (h : style.Indents) (hrest : ∀ c ∈ rest.head?, c ≠ '-')
    (pieces : List Text) :
    Outlines (style.width d)
      (⟨style.indent d, '/' :: '/' :: rest⟩ :: pieces.map (Line.ofPiece style (d + 1)))
      [.comment (commentData rest (Text.join ['\n'] (pieces.rdropWhile List.isEmpty)))] :=
  outlines_block (fun block => .comment (commentData rest block)) h rfl rfl
    (fun _ => readEntry_comment hrest rfl) pieces

theorem map_ofText_pieces (style : Style) (d : Nat) (t : Text) :
    (t.trimmedLines.map (style.indent d ++ ·)).map Line.ofText =
      t.trimmedLines.map (Line.ofPiece style d) := by
  rw [List.map_map]
  exact List.map_congr_left fun piece hpiece =>
    Line.ofText_piece style d (Text.trimmed_of_mem_trimmedLines hpiece)

theorem outlines_textLines (h : style.Indents) (ht : t.Trimmed) (hne : t ≠ []) :
    Outlines (style.width d) ((textLines style d t).map Line.ofText) [.text t.block] := by
  unfold textLines
  split
  · have hdot : Line.ofText (style.indent d ++ ['.']) = ⟨style.indent d, ['.']⟩ :=
      Line.ofText_indent style d (by decide) []
    rw [List.map_cons, hdot, map_ofText_pieces]
    exact outlines_textBlock h t.trimmedLines
  · next hfeed =>
    have hline : Line.ofText (style.indent d ++ "| ".toList ++ t) =
        ⟨style.indent d, '|' :: ' ' :: t⟩ := by
      rw [List.append_assoc]
      exact Line.ofText_content style d
        (.append (by rintro c ⟨⟩; decide) (by decide) ht.last hne) (by simp)
    rw [Text.block_line (by simpa using hfeed) ht hne, List.map_singleton, hline]
    exact outlines_pipe

theorem outlines_commentLines (h : style.Indents) (data : Text) :
    Outlines (style.width d) ((commentLines style d data).map Line.ofText)
      [.comment (commentItemData data)] := by
  by_cases hfeed : '\n' ∈ data
  · have hlines : commentLines style d data = (style.indent d ++ "//".toList) ::
        data.trimmedLines.map (style.indent (d + 1) ++ ·) := by
      unfold commentLines
      split
      · next line heq => exact absurd hfeed (Text.feed_not_mem_of_trimmedLines heq)
      · rfl
    have hhead : Line.ofText (style.indent d ++ "//".toList) = ⟨style.indent d, "//".toList⟩ :=
      Line.ofText_indent style d (by decide) ['/']
    have hdata : commentData [] data.block = commentItemData data := by
      rw [commentItemData, if_pos (by simpa using hfeed), commentData]
      split
      · next hempty => exact (List.isEmpty_iff.1 hempty).symm
      · rfl
    rw [hlines, List.map_cons, hhead, map_ofText_pieces, ← hdata]
    exact outlines_comment h (by simp) data.trimmedLines
  · have hlines : commentLines style d data =
        [style.indent d ++ '/' :: '/' :: ' ' :: data.trim] := by
      rw [commentLines, Text.trimmedLines_line hfeed]
      simp
    have hhead : Line.ofText (style.indent d ++ '/' :: '/' :: ' ' :: data.trim) =
        ⟨style.indent d, '/' :: '/' :: Text.trimEnd (' ' :: data.trim)⟩ := by
      rw [Line.ofText_indent style d (by decide), Text.trimEnd_cons (by decide)]
    have hhyphen : ∀ c ∈ (Text.trimEnd (' ' :: data.trim)).head?, c ≠ '-' := by
      intro c hc
      rw [Text.head_of_mem_head?_trimEnd hc]
      decide
    rw [hlines, List.map_singleton, hhead, commentItemData, if_neg (by simpa using hfeed)]
    exact outlines_comment h hhyphen []

theorem outlines_element {tag : Tag} {lead children : List Item} (h : style.Indents)
    (hcontent : content.Trimmed) (halpha : ∃ c t, content = c :: t ∧ c.isAlpha)
    (hread : ∀ below, readElement content below = (⟨tag, lead, false⟩, below))
    (hchildren : Outlines (style.width (d + 1)) lines children) :
    Outlines (style.width d) (Line.ofText (style.indent d ++ content) :: lines)
      [.element tag (lead ++ children)] := by
  obtain ⟨c, t, rfl, hc⟩ := halpha
  have hline := Line.ofText_content style d hcontent (by simp)
  rw [hline]
  refine .parent rfl rfl (Style.width_lt h (Nat.lt_succ_self d)) (fun below => ?_) hchildren
  rw [readEntry_element hc rfl, hread]
  rfl

section Head

variable {tag : Markup.OpenTag}

theorem trimmed_of_isElementName (h : isElementName name) : name.Trimmed where
  head c hc := by simp [Markup.isBlank_of_isMark
    (isMark_of_mem_elementName h c (List.mem_of_mem_head? hc))]
  last c hc := by simp [Markup.isBlank_of_isMark
    (isMark_of_mem_elementName h c (List.mem_of_getLast? hc))]

theorem headText_eq (tag : Markup.OpenTag) (h : tag.attributes ≠ []) :
    headText tag = tag.name ++
      '(' :: (Text.join ", ".toList (tag.attributes.map attributeText) ++ [')']) := by
  simp [headText, h]

theorem trimmed_headText (h : isElementName tag.name) : (headText tag).Trimmed := by
  by_cases hnone : tag.attributes = []
  · rw [headText, hnone]
    exact trimmed_of_isElementName h
  · rw [headText_eq tag hnone]
    refine .append (trimmed_of_isElementName h).head (ne_nil_of_isElementName h) ?_ (by simp)
    rw [← List.cons_append, List.getLast?_concat]
    rintro c ⟨⟩
    decide

theorem headText_cons (h : isElementName tag.name) : ∃ c t, headText tag = c :: t ∧ c.isAlpha := by
  obtain ⟨c, t, hname, hc⟩ := exists_of_isElementName h
  by_cases hnone : tag.attributes = []
  · exact ⟨c, t, by simp [headText, hnone, hname], hc⟩
  · exact ⟨c, _, by rw [headText_eq tag hnone, hname, List.cons_append], hc⟩

theorem readElement_headText (h : isElementName tag.name)
    (hattributes : ∀ a ∈ tag.attributes, a.Plain) (below : List Line) :
    readElement (headText tag) below =
      (⟨⟨tag.name, tag.attributes.map attributeItem, false⟩, [], false⟩, below) := by
  have hhead : readHead (headText tag) below =
      ⟨tag.name, tag.attributes.map attributeItem, [], below⟩ := by
    by_cases hnone : tag.attributes = []
    · have hname : readHead (tag.name ++ []) below = ⟨tag.name, [], [], below⟩ :=
        readHead_name h (by simp) below
      simpa [headText, hnone] using hname
    · rw [headText_eq tag hnone]
      exact readHead_attributes h hattributes below
  exact readElement_head hhead (by simp)

theorem trimmed_lead (h : isElementName name) (ht : t.Trimmed) (hne : t ≠ []) :
    (name ++ ' ' :: t).Trimmed := by
  refine .append (trimmed_of_isElementName h).head (ne_nil_of_isElementName h) ?_ (by simp)
  rw [List.getLast?_cons_of_ne_nil hne]
  exact ht.last

theorem lead_cons (h : isElementName name) (t : Text) :
    ∃ c u, name ++ ' ' :: t = c :: u ∧ c.isAlpha := by
  obtain ⟨c, u, rfl, hc⟩ := exists_of_isElementName h
  exact ⟨c, _, rfl, hc⟩

theorem readElement_lead (h : isElementName name) (hne : t ≠ []) (below : List Line) :
    readElement (name ++ ' ' :: t) below = (⟨⟨name, [], false⟩, [.text t], false⟩, below) := by
  obtain ⟨c, t, rfl⟩ := List.exists_cons_of_ne_nil hne
  exact readElement_head (readHead_name h (by simp) below) (by simp)

end Head

/-- A text that stands on its element's line is one trimmed line. -/
theorem leadingText?_spec {nodes : List Markup.Node} (h : leadingText? nodes = some t) :
    t.Trimmed ∧ t ≠ [] := by
  fun_induction leadingText? nodes with
  | case1 => cases h
  | case2 u _ nodes _ ih => exact ih h
  | case3 => cases h
  | case4 u _ nodes hempty _ =>
    cases h
    exact ⟨Text.trimmed_trim u, by simpa using hempty⟩
  | case5 _ _ nodes ih => exact ih h
  | case6 => cases h

mutual

theorem outlines_nodeLines (h : style.Indents) (d : Nat) :
    ∀ node : Markup.Node, node.Plain →
      Outlines (style.width d) ((nodeLines style d node).map Line.ofText) (itemsOf node)
  | .element tag children _ _, hplain => by
    cases hplain with
    | element hname hattributes hleaf hapart hchildren =>
      rw [nodeLines, itemsOf]
      split
      · next t hlead =>
        obtain ⟨hnone, hlead⟩ : tag.attributes = [] ∧ leadingText? children = some t := by
          split at hlead
          · next hnone => exact ⟨List.isEmpty_iff.1 hnone, hlead⟩
          · cases hlead
        obtain ⟨htrimmed, hne⟩ := leadingText?_spec hlead
        obtain ⟨items, hitems, hlines⟩ :=
          outlines_linesAfterLead h (d + 1) children hchildren t hlead
        have helement := outlines_element h (trimmed_lead hname htrimmed hne)
          (lead_cons hname t) (readElement_lead hname hne) hlines
        rw [hitems, hnone, List.map_cons, List.append_assoc, headText, hnone]
        exact helement
      · have helement := outlines_element h (trimmed_headText hname) (headText_cons hname)
          (readElement_headText hname hattributes) (outlines_allLines h (d + 1) children hchildren)
        rwa [List.nil_append] at helement
  | .text t _, hplain => by
    rw [nodeLines, itemsOf]
    split
    · exact .nil
    · next hempty =>
      exact outlines_textLines h (Text.trimmed_trim t) (by simpa using hempty)
  | .comment data _, _ => outlines_commentLines h data
  | .declaration _ _, hplain => by cases hplain

/-- Siblings are outlined one after another. -/
theorem outlines_allLines (h : style.Indents) (d : Nat) :
    ∀ nodes : List Markup.Node, (∀ node ∈ nodes, node.Plain) →
      Outlines (style.width d) ((allLines style d nodes).map Line.ofText) (itemsOfAll nodes)
  | [], _ => .nil
  | node :: nodes, hplain => by
    obtain ⟨hnode, hnodes⟩ := List.forall_mem_cons.1 hplain
    rw [allLines, List.map_append, itemsOfAll]
    exact (outlines_nodeLines h d node hnode).append (outlines_allLines h d nodes hnodes)

/-- The siblings after a text that stands on its element's line. -/
theorem outlines_linesAfterLead (h : style.Indents) (d : Nat) :
    ∀ nodes : List Markup.Node, (∀ node ∈ nodes, node.Plain) → ∀ t, leadingText? nodes = some t →
      ∃ items, itemsOfAll nodes = .text t :: items ∧
        Outlines (style.width d) ((linesAfterLead style d nodes).map Line.ofText) items
  | [], _, _, hlead => by cases hlead
  | .text u _ :: nodes, hplain, t, hlead => by
    obtain ⟨hnode, hnodes⟩ := List.forall_mem_cons.1 hplain
    rw [leadingText?] at hlead
    rw [linesAfterLead, itemsOfAll, itemsOf]
    split at hlead
    · next hempty =>
      rw [if_pos hempty, if_pos hempty]
      exact outlines_linesAfterLead h d nodes hnodes t hlead
    · next hempty =>
      rw [if_neg hempty, if_neg hempty]
      split at hlead
      · cases hlead
      · next hfeed =>
        cases hlead
        rw [Text.block_line (by simpa using hfeed) (Text.trimmed_trim u) (by simpa using hempty)]
        exact ⟨itemsOfAll nodes, rfl, outlines_allLines h d nodes hnodes⟩
  | .element _ _ _ _ :: _, _, _, hlead => by cases hlead
  | .comment _ _ :: _, _, _, hlead => by cases hlead
  | .declaration _ _ :: _, hplain, _, _ => by cases hplain _ List.mem_cons_self

end

end TemplateProjection.Outline
