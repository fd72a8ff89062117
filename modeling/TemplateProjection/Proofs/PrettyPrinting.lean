import TemplateProjection.Proofs.PrintedText

/-! Parsing undoes printing: only the layout of a printable forest can change. -/
namespace TemplateProjection.Markup

variable {d : Nat} {t x : Text} {lines lines' : List Text} {span : Span} {node : Node}
  {nodes nodes' rest : List Node}

/-- Nothing in the node can be taken for the end of it. -/
inductive Node.Printable : Node → Prop
  | element {tag : OpenTag} {children : List Node} {span : Span} {endName : Option Span}
      (htag : tag.Printable) (hleaf : tag.selfClosing || isVoid tag.name → children = [])
      (hapart : TextsApart children) (hchildren : ∀ child ∈ children, child.Printable) :
      Printable (.element tag children span endName)
  | text {t : Text} {span : Span} (hlt : '<' ∉ t) : Printable (.text t span)
  | comment {data : Text} {span : Span} (hclose : ¬ "-->".toList <:+: data) :
      Printable (.comment data span)
  | declaration {t : Text} {span : Span} (h : IsDeclaration t) : Printable (.declaration t span)

structure PrintableForest (nodes : List Node) : Prop where
  printable : ∀ node ∈ nodes, node.Printable
  apart : TextsApart nodes

theorem TextsApart.of_append (h : TextsApart (nodes ++ nodes')) : TextsApart nodes' := by
  rw [TextsApart, List.filter_append] at h
  exact h.right_of_append

/-- No text comes after a text, not even behind blank ones. -/
theorem TextsApart.isText_head (h : TextsApart (.text t span :: rest)) (ht : t.solidLines ≠ []) :
    ∀ node ∈ (tidyAll rest).head?, node.isText = false := by
  intro node hnode
  have hcontent : (Node.text t span).isContent := by simpa [Node.isContent_text] using ht
  rw [TextsApart, List.filter_cons_of_pos hcontent] at h
  have hhead := congrArg List.head? (map_isText_tidyAll rest)
  rw [List.head?_map, List.head?_map, hnode, Option.map_some] at hhead
  obtain ⟨next, hnext, htext⟩ := Option.map_eq_some_iff.1 hhead.symm
  have hboth := (List.isChain_cons.1 h).1 next hnext
  rw [← htext]
  simpa [Node.isText] using hboth

/-- The lines convey the forest, before whatever comes after. -/
def LinesConvey (lines : List Text) (nodes : List Node) : Prop :=
  ∀ after rest, Conveys after rest → TextsApart (nodes ++ rest) →
    Conveys (Text.stack lines ++ after) (nodes ++ rest)

theorem LinesConvey.nil : LinesConvey [] [] := fun _ _ hafter _ => hafter

theorem LinesConvey.append (h : LinesConvey lines nodes) (h' : LinesConvey lines' nodes') :
    LinesConvey (lines ++ lines') (nodes ++ nodes') := by
  intro after rest hafter hapart
  rw [List.append_assoc] at hapart ⊢
  rw [Text.stack_append, List.append_assoc]
  exact h _ _ (h' after rest hafter hapart.of_append) hapart

theorem isBlank_newLine (d : Nat) : ∀ c ∈ '\n' :: indentation d, isBlank c :=
  List.forall_mem_cons.2 ⟨by decide, isBlank_indentation d⟩

theorem linesConvey_line
    (h : ∀ after rest, Conveys after rest → Conveys (x ++ after) (node :: rest)) :
    LinesConvey [indentation d ++ x] [node] := by
  intro after rest hafter _
  simpa using (h after rest hafter).blank_append (isBlank_newLine d)

theorem linesConvey_atom (h : Atom x node) : LinesConvey [indentation d ++ x] [node] :=
  linesConvey_line fun _ _ hafter => hafter.atom h

theorem solidLines_printLines_text (t : Text) (span : Span) (d : Nat) :
    (Text.stack ((Node.text t span).printLines d)).solidLines = t.solidLines := by
  calc (Text.stack ((Node.text t span).printLines d)).solidLines
    _ = ((Node.text t span).printLines d).flatMap Text.solidLines := Text.solidLines_stack [] _
    _ = t.solidLines.flatMap Text.solidLines := by
      simp only [Node.printLines_text, List.flatMap_map,
        Text.solidLines_blank_append (isBlank_indentation d)]
    _ = t.solidLines := Text.flatMap_solidLines t

theorem linesConvey_text (span : Span) (hlt : '<' ∉ t) :
    LinesConvey ((Node.text t span).printLines d) [.text t span] := by
  intro after rest hafter hapart
  by_cases hlines : t.solidLines = []
  · -- blank text is not printed, and does not count
    rw [Node.printLines_text, hlines]
    refine hafter.congr ?_
    rw [List.singleton_append, tidyAll, Node.tidy?, hlines]
    rfl
  · have hnot : '<' ∉ Text.stack ((Node.text t span).printLines d) := by
      intro hmem
      obtain ⟨line, hline, hmem⟩ := List.mem_flatMap.1 hmem
      rcases mem_of_mem_printLines_text hline (by simpa using hmem) with hspace | ⟨hmem, -⟩
      · exact absurd hspace (by decide)
      · exact hlt hmem
    refine (hafter.text_append span hnot (hapart.isText_head hlines)).congr ?_
    rw [List.singleton_append, tidyAll, tidyAll,
      Node.tidy?_text_congr span span (solidLines_printLines_text t span d)]

theorem linesConvey_element {tag : OpenTag} {children : List Node} (span : Span)
    (endName : Option Span) (htag : tag.Printable)
    (hopen : (tag.selfClosing || isVoid tag.name) = false)
    (hchildren : LinesConvey (printAllLines (d + 1) children) children)
    (hapart : TextsApart children) :
    LinesConvey ((Node.element tag children span endName).printLines d)
      [.element tag children span endName] := by
  rw [printLines_element span endName hopen]
  cases hcontent : children.any Node.isContent with
  | false =>
    have hnone : tidyAll [] = tidyAll children := (tidyAll_of_not_isContent hcontent).symm
    have hinner : Conveys [] children := (Conveys.blank (by simp)).congr hnone
    refine linesConvey_line fun after rest hafter => ?_
    simpa using hinner.element span endName htag hopen hafter
  | true =>
    intro after rest hafter _
    -- the blanks before the end tag belong to the content
    have hinner := hchildren _ [] (.blank (isBlank_newLine d)) (by simpa using hapart)
    have hconveys := hinner.element span endName htag hopen hafter
    simpa using hconveys.blank_append (isBlank_newLine d)

theorem linesConvey_printAllLines (h : ∀ node ∈ nodes, LinesConvey (node.printLines d) [node]) :
    LinesConvey (printAllLines d nodes) nodes := by
  induction nodes with
  | nil => exact .nil
  | cons node nodes ih =>
    obtain ⟨hnode, hnodes⟩ := List.forall_mem_cons.1 h
    exact hnode.append (ih hnodes)

theorem Node.Printable.linesConvey (h : node.Printable) (d : Nat) :
    LinesConvey (node.printLines d) [node] := by
  induction h generalizing d with
  | @element tag children span endName htag hleaf hapart hchildren ih =>
    by_cases hopen : tag.selfClosing || isVoid tag.name
    · rw [hleaf hopen, printLines_leaf span endName hopen]
      exact linesConvey_atom (.leaf span endName htag hopen)
    · have hcontent := linesConvey_printAllLines fun child hchild => ih child hchild (d + 1)
      exact linesConvey_element span endName htag (by simpa using hopen) hcontent hapart
  | @text t span hlt => exact linesConvey_text span hlt
  | @comment data span hclose =>
    rw [Node.printLines, List.append_assoc, List.append_assoc]
    exact linesConvey_atom (.comment span hclose)
  | @declaration t span h => exact linesConvey_atom (.declaration span h)

theorem conveys_prettyPrint (h : PrintableForest nodes) : Conveys (prettyPrint nodes) nodes := by
  have hlines := linesConvey_printAllLines fun node hnode => (h.printable node hnode).linesConvey 0
  have hconveys := hlines [] [] (.blank (by simp)) (by simpa using h.apart)
  rw [List.append_nil, List.append_nil] at hconveys
  rw [prettyPrint]
  cases hprinted : printAllLines 0 nodes with
  | nil =>
    rw [hprinted] at hconveys
    exact hconveys
  | cons line lines =>
    -- printed markup does not start with a line feed
    rw [hprinted] at hconveys
    rw [Text.join_eq_stack]
    exact hconveys.of_cons_blank (by decide)

/-- A printable forest is found again in the markup printed from it, but for its layout, and is
printed the same way once more. -/
theorem parse_undoes_prettyPrint (h : PrintableForest nodes) :
    tidyAll (parse (prettyPrint nodes)) = tidyAll nodes ∧
      prettyPrint (parse (prettyPrint nodes)) = prettyPrint nodes := by
  have htidy := (conveys_prettyPrint h).tidyAll_parse
  exact ⟨htidy, prettyPrint_congr htidy⟩

/-- Values with either quote, one of them with a line feed, and an attribute without a value. -/
def paragraphTag : OpenTag :=
  ⟨"p".toList,
    [⟨"title".toList, .empty 0, some ⟨"the \"ü\"\n >".toList, .empty 0⟩, .empty 0⟩,
      ⟨"@click.once".toList, .empty 0, some ⟨"f('x')".toList, .empty 0⟩, .empty 0⟩,
      ⟨"hidden".toList, .empty 0, none, .empty 0⟩],
    false, .empty 0⟩

/-- A declaration, then a paragraph with text and a comment of several lines. -/
def page : List Node :=
  [.declaration "<!DOCTYPE html>".toList (.empty 0),
    .text " \n".toList (.empty 0),
    .element paragraphTag
      [.text " two\n\n  lines > ".toList (.empty 0),
        .element ⟨"BR".toList, [], false, .empty 0⟩ [] (.empty 0) none,
        .text "\t".toList (.empty 0),
        .comment "x\n  y --".toList (.empty 0)]
      (.empty 0) none]

theorem printable_paragraphTag : paragraphTag.Printable where
  name := by decide
  attributes := by
    refine List.forall_mem_cons.2 ⟨⟨by decide, ?_⟩, List.forall_mem_cons.2 ⟨⟨by decide, ?_⟩,
      List.forall_mem_singleton.2 ⟨by decide, ?_⟩⟩⟩
    · rintro _ ⟨⟩
      exact Or.inr (by decide)
    · rintro _ ⟨⟩
      exact Or.inl (by decide)
    · rintro _ ⟨⟩

theorem printableForest_page : PrintableForest page where
  printable := by
    have hdoctype : IsDeclaration "<!DOCTYPE html>".toList :=
      isDeclaration_iff.2 ⟨_, rfl, by decide, by decide⟩
    have hbreak : Node.Printable
        (.element ⟨"BR".toList, [], false, .empty 0⟩ [] (.empty 0) none) :=
      .element ⟨by decide, by simp⟩ (fun _ => rfl) .nil (by simp)
    refine List.forall_mem_cons.2 ⟨.declaration hdoctype, List.forall_mem_cons.2
      ⟨.text (by decide), List.forall_mem_singleton.2
        (.element printable_paragraphTag (by decide) (by decide) ?_)⟩⟩
    exact List.forall_mem_cons.2 ⟨.text (by decide), List.forall_mem_cons.2 ⟨hbreak,
      List.forall_mem_cons.2 ⟨.text (by decide),
        List.forall_mem_singleton.2 (.comment (by decide +kernel))⟩⟩⟩
  apart := by decide

theorem parse_undoes_prettyPrint_page :
    PrintableForest page ∧ tidyAll (parse (prettyPrint page)) = tidyAll page ∧
      prettyPrint (parse (prettyPrint page)) = prettyPrint page :=
  ⟨printableForest_page, parse_undoes_prettyPrint printableForest_page⟩

end TemplateProjection.Markup
