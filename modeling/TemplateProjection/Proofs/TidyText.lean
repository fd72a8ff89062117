import TemplateProjection.Proofs.Writing

/-!
Texts that spell out a forest but for its layout. Blanks between tags and at the ends of the text
do not matter.
-/
namespace TemplateProjection.Markup

variable {t run : Text} {nodes nodes' : List Node}

theorem OpenTag.getLast?_render (tag : OpenTag) : tag.render.getLast? = some '>' := by
  rw [OpenTag.render, OpenTag.tail, ← List.append_assoc, ← List.cons_append, List.getLast?_append]
  cases tag.selfClosing <;> rfl

theorem Atom.getLast? {node : Node} (h : Atom t node) : t.getLast? = some '>' := by
  cases h with
  | @comment data span h =>
    rw [← List.append_assoc, List.getLast?_append]
    rfl
  | declaration span h =>
    obtain ⟨u, rfl, -, hthrough⟩ := isDeclaration_iff.1 h
    rw [List.getLast?_cons, getLast?_of_throughGt? hthrough]
    rfl
  | leaf span endName h hleaf => exact OpenTag.getLast?_render _

theorem gt_of_mem_getLast? {front : Text} (s : Text) (ht : t.getLast? = some '>')
    (hfront : ∀ c ∈ front.getLast?, c = '>') : ∀ c ∈ (s ++ (t ++ front)).getLast?, c = '>' := by
  intro c hc
  rw [List.getLast?_append, List.getLast?_append, ht] at hc
  cases hlast : front.getLast? with
  | none =>
    rw [hlast] at hc
    cases hc
    rfl
  | some d =>
    rw [hlast] at hc
    cases hc
    exact hfront c hlast

namespace Written

theorem atom_append {node : Node} {rest : Text} (ht : Atom t node) (h : Written rest nodes) :
    Written (t ++ rest) (node :: nodes) :=
  show Written ([] ++ (t ++ rest)) (textNodes [] ++ node :: nodes) from
    .atom List.not_mem_nil ht h

theorem element_append {tag : OpenTag} {inner rest : Text} {children : List Node} (span : Span)
    (endName : Option Span) (htag : tag.Printable)
    (hopen : (tag.selfClosing || isVoid tag.name) = false) (hinner : Written inner children)
    (h : Written rest nodes) :
    Written (tag.render ++ (inner ++ (renderEndTag tag.name ++ rest)))
      (.element tag children span endName :: nodes) :=
  show Written ([] ++ (tag.render ++ (inner ++ (renderEndTag tag.name ++ rest))))
      (textNodes [] ++ .element tag children span endName :: nodes) from
    .element span endName List.not_mem_nil htag hopen hinner h

/-- The run of text that comes first can be exchanged. -/
theorem exchange_first (h : Written t nodes) :
    ∃ run rest after, t = run ++ rest ∧ nodes = textNodes run ++ after ∧ '<' ∉ run ∧
      (∀ c ∈ rest.head?, c = '<') ∧
      ∀ run', '<' ∉ run' → Written (run' ++ rest) (textNodes run' ++ after) := by
  cases h with
  | last hrun =>
    refine ⟨t, [], [], by simp, by simp, hrun, by simp, ?_⟩
    intro run' hrun'
    simpa using Written.last hrun'
  | @atom run t rest node nodes hrun ht hrest =>
    obtain ⟨u, rfl⟩ := ht.cons
    exact ⟨run, _, _, rfl, rfl, hrun, by simp, fun run' hrun' => .atom hrun' ht hrest⟩
  | @element run inner rest tag children nodes span endName hrun htag hopen hinner hrest =>
    exact ⟨run, _, _, rfl, rfl, hrun, by simp [OpenTag.render],
      fun run' hrun' => .element span endName hrun' htag hopen hinner hrest⟩

/-- Text goes before a forest that does not start with text. -/
theorem text_append {text : Text} (h : Written t nodes) (hlt : '<' ∉ text)
    (hstart : ∀ c ∈ t.head?, c = '<') : Written (text ++ t) (textNodes text ++ nodes) := by
  obtain ⟨run, rest, after, rfl, rfl, hrun, -, hexchange⟩ := h.exchange_first
  cases run with
  | nil => exact hexchange text hlt
  | cons c run => exact absurd (hstart c rfl ▸ List.mem_cons_self) hrun

/-- The run of text that comes last can be exchanged. -/
theorem exchange_last (h : Written t nodes) :
    ∃ front run before, t = front ++ run ∧ nodes = before ++ textNodes run ∧ '<' ∉ run ∧
      (∀ c ∈ front.getLast?, c = '>') ∧
      ∀ run', '<' ∉ run' → Written (front ++ run') (before ++ textNodes run') := by
  induction h with
  | @last run hrun => exact ⟨[], run, [], rfl, rfl, hrun, by simp, fun run' hrun' => .last hrun'⟩
  | @atom run t rest node nodes hrun ht hrest ih =>
    obtain ⟨front, last, before, rfl, rfl, hlast, hgt, hexchange⟩ := ih
    refine ⟨run ++ (t ++ front), last, textNodes run ++ node :: before, by simp, by simp, hlast,
      gt_of_mem_getLast? run ht.getLast? hgt, ?_⟩
    intro run' hrun'
    simpa only [List.append_assoc, List.cons_append] using
      Written.atom hrun ht (hexchange run' hrun')
  | @element run inner rest tag children nodes span endName hrun htag hopen hinner hrest _ ih =>
    obtain ⟨front, last, before, rfl, rfl, hlast, hgt, hexchange⟩ := ih
    have hend : (tag.render ++ (inner ++ renderEndTag tag.name)).getLast? = some '>' := by
      rw [renderEndTag, ← List.append_assoc, ← List.append_assoc, List.getLast?_append]
      rfl
    refine ⟨run ++ (tag.render ++ (inner ++ renderEndTag tag.name) ++ front), last,
      textNodes run ++ .element tag children span endName :: before, by simp, by simp, hlast,
      gt_of_mem_getLast? run hend hgt, ?_⟩
    intro run' hrun'
    simpa only [List.append_assoc, List.cons_append] using
      Written.element span endName hrun htag hopen hinner (hexchange run' hrun')

end Written

theorem tidyAll_textNodes (run : Text) (span : Span) :
    tidyAll (textNodes run) = (Node.text run span).tidy?.toList := by
  cases run with
  | nil => rfl
  | cons c run => exact List.append_nil _

theorem tidyAll_textNodes_congr {run' : Text} (h : run.solidLines = run'.solidLines) :
    tidyAll (textNodes run) = tidyAll (textNodes run') := by
  rw [tidyAll_textNodes run (.empty 0), tidyAll_textNodes run' (.empty 0),
    Node.tidy?_text_congr _ _ h]

theorem tidyAll_textNodes_of_nil (h : run.solidLines = []) : tidyAll (textNodes run) = [] := by
  rw [tidyAll_textNodes run (.empty 0), Node.tidy?, h]
  rfl

theorem map_isText_tidyAll (nodes : List Node) :
    (tidyAll nodes).map Node.isText = (nodes.filter Node.isContent).map Node.isText := by
  induction nodes with
  | nil => rfl
  | cons node nodes ih =>
    have hnode : node.tidy?.toList.map Node.isText =
        ([node].filter Node.isContent).map Node.isText := by
      cases node with
      | element tag children span endName => rfl
      | text t span =>
        rw [Node.tidy?, List.filter_singleton, Node.isContent_text]
        cases t.solidLines.isEmpty <;> rfl
      | comment data span => rfl
      | declaration t span => rfl
    rw [tidyAll, List.map_append, hnode, ih, ← List.map_append, ← List.filter_append,
      List.singleton_append]

theorem tidyAll_of_not_isContent (h : nodes.any Node.isContent = false) : tidyAll nodes = [] := by
  have hnone : nodes.filter Node.isContent = [] := by simpa [List.filter_eq_nil_iff] using h
  have hmap := map_isText_tidyAll nodes
  rw [hnone] at hmap
  exact List.map_eq_nil_iff.1 hmap

/-- The text spells out the forest, or one that differs from it in layout only. -/
def Conveys (t : Text) (nodes : List Node) : Prop :=
  ∃ found, Written t found ∧ tidyAll found = tidyAll nodes

namespace Conveys

theorem tidyAll_parse (h : Conveys t nodes) : tidyAll (parse t) = tidyAll nodes := by
  obtain ⟨found, hwritten, htidy⟩ := h
  rw [← tidyAll_bareAll, parse_written hwritten, tidyAll_bareAll, htidy]

theorem congr (h : Conveys t nodes) (htidy : tidyAll nodes = tidyAll nodes') :
    Conveys t nodes' := by
  obtain ⟨found, hwritten, hfound⟩ := h
  exact ⟨found, hwritten, hfound.trans htidy⟩

theorem blank (h : ∀ c ∈ t, isBlank c) : Conveys t [] := by
  have hlt : '<' ∉ t := fun hlt => absurd (h '<' hlt) (by decide)
  exact ⟨_, .last hlt, tidyAll_textNodes_of_nil (Text.solidLines_of_blank h)⟩

theorem atom {node : Node} {rest : Text} (ht : Atom t node) (h : Conveys rest nodes) :
    Conveys (t ++ rest) (node :: nodes) := by
  obtain ⟨found, hwritten, htidy⟩ := h
  refine ⟨node :: found, .atom_append ht hwritten, ?_⟩
  rw [tidyAll, htidy, tidyAll]

theorem element {tag : OpenTag} {inner rest : Text} {children : List Node} (span : Span)
    (endName : Option Span) (htag : tag.Printable)
    (hopen : (tag.selfClosing || isVoid tag.name) = false) (hinner : Conveys inner children)
    (h : Conveys rest nodes) :
    Conveys (tag.render ++ (inner ++ (renderEndTag tag.name ++ rest)))
      (.element tag children span endName :: nodes) := by
  obtain ⟨found, hwritten, htidy⟩ := h
  obtain ⟨inside, hinside, hchildren⟩ := hinner
  refine ⟨.element tag inside span endName :: found,
    .element_append span endName htag hopen hinside hwritten, ?_⟩
  simp only [tidyAll, Node.tidy?, hchildren, htidy]

/-- Of the run of text that comes first only the solid lines count. -/
theorem exchange_first (h : Conveys t nodes) :
    ∃ run rest, t = run ++ rest ∧ '<' ∉ run ∧ (∀ c ∈ rest.head?, c = '<') ∧
      ∀ run', '<' ∉ run' → run'.solidLines = run.solidLines → Conveys (run' ++ rest) nodes := by
  obtain ⟨found, hwritten, htidy⟩ := h
  obtain ⟨run, rest, after, rfl, rfl, hrun, hrest, hexchange⟩ := hwritten.exchange_first
  refine ⟨run, rest, rfl, hrun, hrest, fun run' hrun' hlines => ?_⟩
  refine ⟨_, hexchange run' hrun', ?_⟩
  rw [← htidy, tidyAll_append, tidyAll_append, tidyAll_textNodes_congr hlines]

/-- Blanks in front do not matter. -/
theorem blank_append {w : Text} (hw : ∀ c ∈ w, isBlank c) (h : Conveys t nodes) :
    Conveys (w ++ t) nodes := by
  obtain ⟨run, rest, rfl, hrun, -, hexchange⟩ := h.exchange_first
  have hlt : '<' ∉ w ++ run := by
    simpa [hrun] using fun hlt => absurd (hw '<' hlt) (by decide)
  rw [← List.append_assoc]
  exact hexchange _ hlt (Text.solidLines_blank_append hw run)

theorem of_cons_blank {c : Char} (hc : isBlank c) (h : Conveys (c :: t) nodes) :
    Conveys t nodes := by
  obtain ⟨run, rest, heq, hrun, hrest, hexchange⟩ := h.exchange_first
  cases run with
  | nil =>
    have hlt : c = '<' := hrest c (by rw [← List.nil_append rest, ← heq]; rfl)
    rw [hlt] at hc
    exact absurd hc (by decide)
  | cons d run =>
    obtain ⟨rfl, rfl⟩ := List.cons.inj heq
    exact hexchange run (fun hlt => hrun (List.mem_cons_of_mem c hlt))
      (Text.solidLines_cons_blank hc run).symm

/-- Text in front of something else is a text of its own. -/
theorem text_append {text : Text} (span : Span) (hlt : '<' ∉ text) (h : Conveys t nodes)
    (hnodes : ∀ node ∈ (tidyAll nodes).head?, node.isText = false) :
    Conveys (text ++ t) (.text text span :: nodes) := by
  obtain ⟨found, hwritten, htidy⟩ := h
  obtain ⟨run, rest, after, rfl, rfl, hrun, -, hexchange⟩ := hwritten.exchange_first
  have hnone : run.solidLines = [] := by
    -- otherwise the forest would start with the text of the run
    by_contra hne
    rw [← htidy, tidyAll_append, tidyAll_textNodes run span, Node.tidy?,
      if_neg (by simpa using hne)] at hnodes
    exact absurd (hnodes _ rfl) (by simp [Node.isText])
  have hblank : ∀ c ∈ run, isBlank c :=
    Text.words_eq_nil_iff.1 (Text.solidLines_eq_nil_iff.1 hnone)
  have hboth : '<' ∉ text ++ run := by simp [hlt, hrun]
  have hrest : tidyAll after = tidyAll nodes := by
    rw [← htidy, tidyAll_append, tidyAll_textNodes_of_nil hnone, List.nil_append]
  refine ⟨textNodes (text ++ run) ++ after, by simpa using hexchange _ hboth, ?_⟩
  rw [tidyAll_append, tidyAll_textNodes _ span, hrest, tidyAll,
    Node.tidy?_text_congr span span (Text.solidLines_append_blank text hblank)]

theorem trimStart (h : Conveys t nodes) : Conveys t.trimStart nodes := by
  obtain ⟨run, rest, rfl, hrun, hrest, hexchange⟩ := h.exchange_first
  have hblank : ∀ c ∈ rest.head?, ¬ isBlank c := by
    intro c hc
    rw [hrest c hc]
    decide
  have hlt : '<' ∉ run.trimStart := fun hlt => hrun ((Text.trimStart_suffix run).subset hlt)
  rw [Text.trimStart_append_of_head run hblank]
  exact hexchange _ hlt (Text.solidLines_trimStart run)

theorem trimEnd (h : Conveys t nodes) : Conveys t.trimEnd nodes := by
  obtain ⟨found, hwritten, htidy⟩ := h
  obtain ⟨front, run, before, rfl, rfl, hrun, hfront, hexchange⟩ := hwritten.exchange_last
  have hblank : ∀ c ∈ front.getLast?, ¬ isBlank c := by
    intro c hc
    rw [hfront c hc]
    decide
  have hlt : '<' ∉ run.trimEnd := fun hlt => hrun ((Text.trimEnd_isPrefix run).subset hlt)
  refine ⟨before ++ textNodes run.trimEnd, ?_, ?_⟩
  · rw [Text.trimEnd_append_of_last run hblank]
    exact hexchange _ hlt
  · rw [← htidy, tidyAll_append, tidyAll_append,
      tidyAll_textNodes_congr (Text.solidLines_trimEnd run)]

theorem trim (h : Conveys t nodes) : Conveys t.trim nodes := h.trimStart.trimEnd

end Conveys

end TemplateProjection.Markup
