import TemplateProjection.Proofs.DocumentOrder
import TemplateProjection.Proofs.KeptAttributes
import TemplateProjection.Proofs.LoopClauses
import TemplateProjection.Proofs.TagText

/-!
The loops of a template are those of the elements of its markup in order, and the elements are the
opening tags of its text. An element that is written with a loop clause has the loop of that clause.
-/
namespace TemplateProjection

namespace Markup

variable {source : Text} {tag : OpenTag}

/-! ### Elements and opening tags -/

def Token.openTag? (token : Token) : Option OpenTag :=
  if token.kind = .openTag then some (.ofExcerpt token.toExcerpt) else none

/-- The opening tags of the elements of a tree. -/
def tagsOf (nodes : List Node) : List OpenTag := (elementsOf nodes).map (·.1)

theorem tagsOf_append (nodes nodes' : List Node) :
    tagsOf (nodes ++ nodes') = tagsOf nodes ++ tagsOf nodes' := by
  induction nodes with
  | nil => rfl
  | cons node nodes ih =>
    simp only [tagsOf] at ih ⊢
    rw [List.cons_append, elementsOf_cons, elementsOf_cons node nodes, List.map_append,
      List.map_append, ih, List.append_assoc]

theorem collects_tagsOf : Builder.Collects (fun tag => [tag]) tagsOf := by
  refine ⟨tagsOf_append, fun tag children span endName => ?_⟩
  rw [tagsOf, elementsOf_element]
  rfl

/-- Text has no tags, also where it joins other text. -/
theorem tagsOf_appendText (nodes : List Node) (e : Excerpt) :
    tagsOf (appendText nodes e) = tagsOf nodes := by
  have htext : ∀ t span, tagsOf [.text t span] = [] := fun _ _ => rfl
  simp only [appendText]
  split
  · next before span hlast =>
    split
    · conv => rhs; rw [← List.dropLast_append_getLast? _ hlast]
      rw [tagsOf_append, tagsOf_append, htext, htext]
    · rw [tagsOf_append, htext, List.append_nil]
  · rw [tagsOf_append, htext, List.append_nil]

namespace Builder

/-- The opening tags that have been read. -/
def tags (b : Builder) : List OpenTag := b.collected (fun tag => [tag]) tagsOf

theorem tags_step (b : Builder) (token : Token) :
    (b.step token).tags = b.tags ++ token.openTag?.toList := by
  have htext : (b.modify (appendText · token.toExcerpt)).tags = b.tags := by
    obtain ⟨outer, hb, hmodify⟩ := collected_modify (fun tag => [tag]) tagsOf b
    rw [tags, hmodify, tagsOf_appendText, ← hb, tags]
  have hpush : ∀ node, tagsOf [node] = [] → (b.push node).tags = b.tags := by
    intro node hnode
    rw [tags, collected_push collects_tagsOf, hnode, List.append_nil, tags]
  simp only [step, Token.openTag?]
  split
  · next hkind => simp [hkind, htext]
  · next hkind => simp [hkind, htext]
  · next hkind => simp [hkind, hpush (.comment _ _) rfl]
  · next hkind => simp [hkind, hpush (.declaration _ _) rfl]
  · next hkind =>
    rw [hkind]
    exact collected_openTag collects_tagsOf b _
  · next hkind =>
    rw [hkind]
    exact (collected_close collects_tagsOf b _).trans (List.append_nil _).symm

theorem tags_foldl (tokens : List Token) (b : Builder) :
    (tokens.foldl step b).tags = b.tags ++ tokens.filterMap Token.openTag? := by
  induction tokens generalizing b with
  | nil => simp
  | cons token tokens ih =>
    rw [List.foldl_cons, ih, tags_step, List.append_assoc, List.filterMap_cons]
    cases token.openTag? <;> rfl

end Builder

/-- The elements of a tree are the opening tags of its text. -/
theorem tagsOf_parse (t : Text) : tagsOf (parse t) = (Token.lex t).filterMap Token.openTag? := by
  have hread := Builder.tags_foldl (Token.lex t) ⟨[], []⟩
  have hparse := parse_induction
    (P := fun b => b.tags = (Token.lex t).filterMap Token.openTag?) hread
    fun _ _ _ h => (Builder.collected_closeInnermost collects_tagsOf _ _ _ _ _).trans h
  simpa [Builder.tags, Builder.collected] using hparse

theorem readIn_of_mem_elementsOf {element : OpenTag × Span}
    (h : element ∈ elementsOf (parse source)) : element.1.ReadIn source := by
  obtain ⟨node, hnode, hmem⟩ := mem_elementsOf.1 h
  exact ((tagsStandIn_parse source node hnode).elements element hmem).readIn

/-! ### Written elements -/

/-- A text that starts with a written tag has that element first. -/
theorem OpenTag.Printable.elementsOf_parse (h : tag.Printable) (rest : Text) :
    ∃ span elements,
      elementsOf (parse (tag.render ++ rest)) = (.ofExcerpt ⟨0, tag.render⟩, span) :: elements := by
  have hfirst : Lexeme.first '<' (tag.name ++ tag.tail ++ rest) = ⟨.openTag, tag.render, rest⟩ := by
    rw [List.append_assoc]
    exact h.first rest
  have hlex : Token.lex (tag.render ++ rest) =
      ⟨⟨0, tag.render⟩, .openTag⟩ :: Token.lexFrom (0 + tag.render.byteLength) rest := by
    rw [Token.lex, OpenTag.render, List.cons_append, Token.lexFrom, hfirst]
    rfl
  have htags := tagsOf_parse (tag.render ++ rest)
  rw [hlex, List.filterMap_cons] at htags
  obtain ⟨⟨_, span⟩, elements, helements, rfl, -⟩ := List.map_eq_cons_iff.1 htags
  exact ⟨span, elements, helements⟩

/-- The value of a written attribute has its place behind the attributes before it. -/
theorem readAttributes_value {before after : List Attribute} {a : Attribute} {v : AttributeValue}
    {e : Excerpt} {closed : Bool} (h : ∀ x ∈ before ++ a :: after, x.Printable)
    (hv : a.value = some v)
    (he : e.text = renderAttributes (before ++ a :: after) ++ closer closed) :
    let start := e.start + (renderAttributes before).byteLength + a.name.byteLength + 3
    ∃ found a' found', (readAttributes e).1 = found ++ a' :: found' ∧ a'.name = a.name ∧
      a'.value = some ⟨v.text, ⟨start, v.text.byteLength⟩⟩ ∧
      found'.map Attribute.bare = after.map Attribute.bare := by
  intro start
  obtain ⟨hbefore, hrest⟩ := List.forall_mem_append.1 h
  obtain ⟨ha, hafter⟩ := List.forall_mem_cons.1 hrest
  obtain ⟨q, hq, hnot, hrender⟩ := ha.render_eq hv
  have hsplit : e.text =
      renderAttributes before ++ (renderAttributes (a :: after) ++ closer closed) := by
    rw [he, renderAttributes, List.flatMap_append, List.append_assoc]
    rfl
  obtain ⟨found, -, hfound⟩ := readAttributes_append hbefore
    (followsAttribute_append hrest (followsAttribute_closer closed)) hsplit
  have hwritten : a.render ++ (renderAttributes after ++ closer closed) =
      a.name ++ '=' :: q :: (v.text ++ q :: (renderAttributes after ++ closer closed)) := by
    rw [hrender]
    simp only [List.append_assoc, List.cons_append, List.nil_append]
  obtain ⟨span, hread⟩ := @readAttribute_quoted _ a.name
    ⟨e.start + (renderAttributes before).byteLength + 1, _⟩ q v.text ha.name hq hnot hwritten
  obtain ⟨found', hlast, hmap⟩ := @readAttributes_render after ⟨_, _⟩ closed hafter rfl
  rw [renderAttributes_cons, List.cons_append, List.append_assoc,
    @readAttributes_first _ a _ ⟨_, _⟩ _ ha rfl hread, hlast] at hfound
  have hstart : e.start + (renderAttributes before).byteLength + 1 + a.name.byteLength + 2 =
      start := by omega
  exact ⟨found, _, found', congrArg Prod.fst hfound, rfl, by rw [hstart], hmap⟩

/-- An element that is written first with a value for one of its attributes. -/
theorem elementsOf_written {before after : List Attribute} {name attributeName v : Text}
    (hname : isElementName name) (hattribute : isAttributeName attributeName) (hv : '"' ∉ v)
    (hbefore : ∀ a ∈ before, a.Printable) (hafter : ∀ a ∈ after, a.Printable) (closed : Bool)
    (rest : Text) :
    let lead := '<' :: (name ++ renderAttributes before ++ ' ' :: (attributeName ++ ['=', '"']))
    let source := lead ++ (v ++ '"' :: (renderAttributes after ++ closer closed ++ rest))
    ∃ tag span elements found a found',
      elementsOf (parse source) = (tag, span) :: elements ∧ tag.name = name ∧
        tag.attributes = found ++ a :: found' ∧ a.name = attributeName ∧
        a.value = some ⟨v, ⟨Text.byteLength lead, v.byteLength⟩⟩ ∧
        found'.map Attribute.bare = after.map Attribute.bare := by
  intro lead source
  let a : Attribute := ⟨attributeName, .empty 0, some ⟨v, .empty 0⟩, .empty 0⟩
  let tag : OpenTag := ⟨name, before ++ a :: after, closed, .empty 0⟩
  have hattributes : ∀ x ∈ before ++ a :: after, x.Printable := by
    refine List.forall_mem_append.2 ⟨hbefore, List.forall_mem_cons.2 ⟨⟨hattribute, ?_⟩, hafter⟩⟩
    rintro _ ⟨⟩
    exact .inl hv
  have hprintable : tag.Printable := ⟨hname, hattributes⟩
  have hsource : source = tag.render ++ rest := by
    have hrender : a.render = attributeName ++ '=' :: '"' :: (v ++ ['"']) := by
      simp [Attribute.render, a, hv]
    simp [source, lead, OpenTag.render, OpenTag.tail, tag, hrender, renderAttributes]
  have hlead : Text.byteLength lead = 0 + 1 + name.byteLength +
      (renderAttributes before).byteLength + attributeName.byteLength + 3 := by
    have hmarks : Char.utf8Size '<' = 1 ∧ Char.utf8Size ' ' = 1 ∧
        Text.byteLength ['=', '"'] = 2 := by decide
    simp only [lead, Text.byteLength_cons, Text.byteLength_append, hmarks]
    omega
  obtain ⟨span, elements, helements⟩ := hprintable.elementsOf_parse rest
  obtain ⟨found, a', found', hread, haname, havalue, hmap⟩ :=
    @readAttributes_value _ _ a _ ⟨0 + 1 + name.byteLength, tag.tail⟩ closed hattributes rfl rfl
  rw [hprintable.ofExcerpt_eq, ← hsource] at helements
  rw [← hlead] at havalue
  exact ⟨_, span, elements, found, a', found', helements, rfl, hread, haname, havalue, hmap⟩

end Markup

namespace Template

variable {source : Text}

/-! ### The loops of a template -/

def Node.loop? : Node → Option (LoopClause × Excerpt)
  | .loop clause _ loc => some (clause, loc)
  | _ => none

/-- The loops of a template in order, each with its place. -/
def loopsOf (nodes : List Node) : List (LoopClause × Excerpt) := collect Node.loop? nodes

/-- The loop that an element of the markup is put into. -/
def loopOf? (source : Text) (element : Markup.OpenTag × Span) : Option (LoopClause × Excerpt) :=
  (loopClause? element.1.attributes).map (·, locate source element.2)

theorem loopsOf_append (nodes nodes' : List Node) :
    loopsOf (nodes ++ nodes') = loopsOf nodes ++ loopsOf nodes' :=
  collect_append Node.loop? nodes nodes'

theorem loopsOf_elementPiece (source : Text) (tag : Markup.OpenTag) (span : Span)
    (endName : Option Span) (children : List Node) :
    loopsOf ((elementPiece source tag span endName children).map Piece.alone) =
      (loopOf? source (tag, span)).toList ++ loopsOf children := by
  rw [loopsOf, collect_elementPiece (fun _ _ => rfl) (fun _ _ => rfl) (fun _ _ _ => rfl), loopOf?,
    Option.map_eq_bind]
  rfl

theorem loopsOf_textNodes (e : Excerpt) : loopsOf (textNodes e) = [] := by
  have hnone : ∀ node ∈ textNodes e, loopsOf [node] = [] := by
    intro node hnode
    rcases mem_textNodes hnode with ⟨text, -, rfl⟩ | ⟨inner, -, rfl⟩ <;> rfl
  generalize textNodes e = nodes at hnone
  induction nodes with
  | nil => rfl
  | cons node nodes ih =>
    obtain ⟨hnode, hnodes⟩ := List.forall_mem_cons.1 hnone
    rw [← List.singleton_append, loopsOf_append, hnode, ih hnodes, List.nil_append]

theorem loopsOf_gather (source : Text) (pieces : List Piece) :
    loopsOf (gather source pieces) = loopsOf (pieces.map Piece.alone) :=
  collect_gather (fun _ _ => rfl) (fun _ _ => rfl) source pieces

mutual

theorem loopsOf_piecesOf (source : Text) : ∀ node : Markup.Node,
    loopsOf ((piecesOf source node).map Piece.alone) =
      (Markup.elementsOf [node]).filterMap (loopOf? source)
  | .element tag children span endName => by
    rw [piecesOf, loopsOf_elementPiece, loopsOf_gather, loopsOf_piecesOfAll source children,
      Markup.elementsOf_element, List.filterMap_cons]
    cases loopOf? source (tag, span) <;> rfl
  | .text text span => by
    rw [piecesOf, map_alone_node]
    exact loopsOf_textNodes _
  | .comment _ _ => by
    rw [piecesOf]
    rfl
  | .declaration _ _ => by
    rw [piecesOf]
    rfl

theorem loopsOf_piecesOfAll (source : Text) : ∀ nodes : List Markup.Node,
    loopsOf ((piecesOfAll source nodes).map Piece.alone) =
      (Markup.elementsOf nodes).filterMap (loopOf? source)
  | [] => by
    rw [piecesOfAll]
    rfl
  | node :: nodes => by
    rw [piecesOfAll, List.map_append, loopsOf_append, loopsOf_piecesOf source node,
      loopsOf_piecesOfAll source nodes, Markup.elementsOf_cons node nodes, List.filterMap_append]

end

theorem loopsOf_parse (source : Text) :
    loopsOf (parse source) =
      (Markup.elementsOf (Markup.parse source)).filterMap (loopOf? source) := by
  rw [parse, ofMarkup, loopsOf_gather, loopsOf_piecesOfAll]

/-- The last loop clause of an element counts. -/
theorem loopClause?_eq_some {attributes later : List Markup.Attribute} {a : Markup.Attribute}
    (ha : isLoop a) (hlater : ∀ a ∈ later, isLoop a = false) :
    loopClause? (attributes ++ a :: later) = some (.ofAttribute a) := by
  have hnone : later.filter isLoop = [] := by simpa using hlater
  rw [loopClause?, List.filter_append, List.filter_cons_of_pos ha, hnone, List.getLast?_concat,
    Option.map_some]

/-- The value of the last attribute of a tag that holds a loop clause. -/
def LoopValue (tag : Markup.OpenTag) (v : Markup.AttributeValue) : Prop :=
  ∃ before a after, tag.attributes = before ++ a :: after ∧ isLoop a ∧ a.value = some v ∧
    ∀ b ∈ after, isLoop b = false

theorem LoopValue.loopOf? {tag : Markup.OpenTag} {v : Markup.AttributeValue} (h : LoopValue tag v)
    {w : WrittenClause} (htext : v.text = w.text) (source : Text) (span : Span) :
    loopOf? source (tag, span) = some (w.clauseAt v.span.start, locate source span) := by
  obtain ⟨before, a, after, hattributes, hloop, hvalue, hafter⟩ := h
  have hread := w.ofExcerpt_text v.span.start
  rw [← htext] at hread
  have hclause : LoopClause.ofAttribute a = w.clauseAt v.span.start := by
    rw [LoopClause.ofAttribute, hvalue]
    exact hread
  rw [Template.loopOf?, hattributes, loopClause?_eq_some hloop hafter, Option.map_some, hclause]

/-- An element whose last loop clause is a written one has the loop of that clause, at its place
among the loops of the template, and the parts of the clause stand where they are written. -/
theorem loopsOf_written (w : WrittenClause) {elements elements' : List (Markup.OpenTag × Span)}
    {tag : Markup.OpenTag} {span : Span} {v : Markup.AttributeValue}
    (helements : Markup.elementsOf (Markup.parse source) = elements ++ (tag, span) :: elements')
    (hv : LoopValue tag v) (htext : v.text = w.text) :
    loopsOf (parse source) = elements.filterMap (loopOf? source) ++
        (w.clauseAt v.span.start, locate source span) :: elements'.filterMap (loopOf? source) ∧
      ∀ part ∈ w.partsAt v.span.start, source.slice? part.span = some part.text := by
  constructor
  · rw [loopsOf_parse, helements, List.filterMap_append,
      List.filterMap_cons_some (hv.loopOf? htext source span)]
  · have helement : (tag, span) ∈ Markup.elementsOf (Markup.parse source) := by
      rw [helements]
      exact List.mem_append_right _ (.head _)
    obtain ⟨before, a, after, hattributes, -, hvalue, -⟩ := hv
    have ha : a ∈ tag.attributes := by
      rw [hattributes]
      exact List.mem_append_right _ (.head _)
    have hplaced := ((Markup.readIn_of_mem_elementsOf helement).attributes a ha).value v hvalue
    obtain ⟨lead, behind, hsource, hlead, -⟩ := Text.slice?_eq_some_iff.1 hplaced
    rw [htext] at hsource
    have hin : (Excerpt.mk v.span.start w.text).In source := ⟨lead, behind, hsource, hlead⟩
    exact fun part hpart => Excerpt.in_iff_slice?.1 (w.parts_in hin part hpart)

/-- A written loop clause is read back, whatever commas and separators stand in it. An element whose
last clause it is has one loop, at its place among the loops of the template. The value, the key,
the index and the source of the loop are what was written, with characters for the references, and
their spans cover just that. So it is wherever the element stands in a template. If a text starts
with an element that is written with the clause among its attributes, that element is the first and
its clause stands behind what is written before it. -/
theorem written_clause_read_back (w : WrittenClause) :
    (∀ {source : Text} {elements elements' : List (Markup.OpenTag × Span)} {tag : Markup.OpenTag}
        {span : Span} {v : Markup.AttributeValue},
      Markup.elementsOf (Markup.parse source) = elements ++ (tag, span) :: elements' →
      LoopValue tag v → v.text = w.text →
      loopsOf (parse source) = elements.filterMap (loopOf? source) ++
          (w.clauseAt v.span.start, locate source span) :: elements'.filterMap (loopOf? source) ∧
        ∀ part ∈ w.partsAt v.span.start, source.slice? part.span = some part.text) ∧
    ∀ {name rest : Text} {before after : List Markup.Attribute} {closed : Bool},
      Markup.isElementName name → (∀ a ∈ before, a.Printable) → (∀ a ∈ after, a.Printable) →
      (∀ a ∈ after, isLoop a = false) →
      let lead : Text := '<' :: (name ++ Markup.renderAttributes before ++ " v-for=\"".toList)
      let source : Text := lead ++
        (w.text ++ '"' :: (Markup.renderAttributes after ++ Markup.closer closed ++ rest))
      ∃ tag span elements,
        Markup.elementsOf (Markup.parse source) = (tag, span) :: elements ∧ tag.name = name ∧
          loopsOf (parse source) = (w.clauseAt lead.byteLength, locate source span) ::
            elements.filterMap (loopOf? source) ∧
          ∀ part ∈ w.partsAt lead.byteLength, source.slice? part.span = some part.text := by
  refine ⟨loopsOf_written w, ?_⟩
  intro name rest before after closed hname hbefore hafter hlast lead source
  obtain ⟨tag, span, elements, found, a, found', helements, htag, hattributes, ha, hvalue, hmap⟩ :=
    @Markup.elementsOf_written before after name "v-for".toList w.text hname (by decide)
      w.unquoted_text hbefore hafter closed rest
  have hlater : ∀ b ∈ found', isLoop b = false := by
    intro b hb
    have hbare : b.bare ∈ after.map Markup.Attribute.bare := hmap ▸ List.mem_map_of_mem hb
    obtain ⟨b', hb', heq⟩ := List.mem_map.1 hbare
    have hname : b'.bare.name = b.bare.name := congrArg (·.name) heq
    exact (congrArg (· == "v-for".toList) hname).symm.trans (hlast b' hb')
  have hloop : isLoop a := by rw [isLoop, ha, beq_self_eq_true]
  have hv : LoopValue tag ⟨w.text, ⟨lead.byteLength, w.text.byteLength⟩⟩ :=
    ⟨found, a, found', hattributes, hloop, hvalue, hlater⟩
  exact ⟨tag, span, elements, helements, htag, @loopsOf_written _ w [] _ _ _ _ helements hv rfl⟩

/-- A pattern with a comma in it, and a source with a separator and a comma. -/
def patternClause : WrittenClause where
  value := "\x7b a: [b, c] \x7d".toList
  iterators := [['k'], ['i']]
  keyword := "of".toList
  source := "x in y, z".toList
  value_filled := by decide
  value_trimmed := ⟨by rintro c ⟨⟩; decide, by rintro c ⟨⟩; decide⟩
  value_unseparated := by
    intro keyword hkeyword c d _ _ hwithin
    have hletters : ∀ letter ∈ keyword, letter ∈ "\x7b a: [b, c] \x7d".toList := fun letter hmem =>
      hwithin.subset (.tail _ (List.mem_append_left _ hmem))
    rcases eq_of_mem_keywords hkeyword with rfl | rfl
    · exact absurd (hletters 'n' (by decide)) (by decide)
    · exact absurd (hletters 'f' (by decide)) (by decide)
  value_closed := by
    intro tail htail
    have hall : "\x7b a: [b, c] \x7d".toList.tails.all fun tail =>
        tail.head? != some ',' || tail.tail.contains ']' := by decide
    have hclosed := List.all_eq_true.1 hall _ ((List.mem_tails _ _).2 htail)
    exact .inr (List.contains_iff_mem.1 hclosed)
  iterators_few := by decide
  iterators_filled := List.forall_mem_cons.2 ⟨by decide, List.forall_mem_singleton.2 (by decide)⟩
  iterators_solid := List.forall_mem_cons.2 ⟨List.forall_mem_singleton.2 (by decide),
    List.forall_mem_singleton.2 (List.forall_mem_singleton.2 (by decide))⟩
  keyword_mem := by decide
  source_filled := by decide
  source_trimmed := ⟨by rintro c ⟨⟩; decide, by rintro c ⟨⟩; decide⟩
  unquoted := by
    intro part hpart
    have hall : ["x in y, z".toList, "\x7b a: [b, c] \x7d".toList, ['k'], ['i']].all
        fun part => decide ('"' ∉ part) := by decide
    exact of_decide_eq_true (List.all_eq_true.1 hall part hpart)

/-- The clause on an element that has a condition as well, alone and in another element. -/
theorem written_clause_read_back_pattern :
    let item : Text :=
      "<li v-if=\"ok\" v-for=\"".toList ++ (patternClause.text ++ "\" id=\"a\"/>".toList)
    let list : Text := "<ul>".toList ++ (item ++ "</ul>".toList)
    loopsOf (parse item) = [(patternClause.clauseAt 21, locate item ⟨0, 65⟩)] ∧
      loopsOf (parse list) = [(patternClause.clauseAt 25, locate list ⟨4, 65⟩)] ∧
      (patternClause.clauseAt 25).expressions.map (·.span) =
        [⟨50, 9⟩, ⟨26, 13⟩, ⟨41, 1⟩, ⟨44, 1⟩] ∧
      list.slice? ⟨26, 13⟩ = some patternClause.value := by
  intro item list
  let condition (offset : Nat) : Markup.Attribute :=
    ⟨"v-if".toList, ⟨offset + 4, 4⟩, some ⟨"ok".toList, ⟨offset + 10, 2⟩⟩, ⟨offset + 4, 9⟩⟩
  let loop (offset : Nat) : Markup.Attribute :=
    ⟨"v-for".toList, ⟨offset + 14, 5⟩, some ⟨patternClause.text, ⟨offset + 21, 34⟩⟩,
      ⟨offset + 14, 42⟩⟩
  let label (offset : Nat) : Markup.Attribute :=
    ⟨"id".toList, ⟨offset + 57, 2⟩, some ⟨"a".toList, ⟨offset + 61, 1⟩⟩, ⟨offset + 57, 6⟩⟩
  let tag (offset : Nat) : Markup.OpenTag :=
    ⟨"li".toList, [condition offset, loop offset, label offset], true, ⟨offset, 65⟩⟩
  have hitem : Markup.elementsOf (Markup.parse item) = [(tag 0, ⟨0, 65⟩)] := by decide +kernel
  have hlist : Markup.elementsOf (Markup.parse list) =
      [(⟨"ul".toList, [], false, ⟨0, 4⟩⟩, ⟨0, 74⟩)] ++ (tag 4, ⟨4, 65⟩) :: [] := by decide +kernel
  have hvalue : LoopValue (tag 4) ⟨patternClause.text, ⟨25, 34⟩⟩ :=
    ⟨[condition 4], loop 4, [label 4], rfl, rfl, rfl, List.forall_mem_singleton.2 (by decide)⟩
  have hwhole : '<' :: ("li".toList ++ Markup.renderAttributes [condition 0] ++
      " v-for=\"".toList) ++ (patternClause.text ++
        '"' :: (Markup.renderAttributes [label 0] ++ Markup.closer true ++ [])) = item := by
    decide +kernel
  have hlead : Text.byteLength ('<' :: ("li".toList ++ Markup.renderAttributes [condition 0] ++
      " v-for=\"".toList)) = 21 := by decide +kernel
  obtain ⟨hanywhere, hwritten⟩ := written_clause_read_back patternClause
  obtain ⟨tag', span, elements, helements, -, hloops, -⟩ :=
    @hwritten "li".toList [] [condition 0] [label 0] true (by decide)
      (List.forall_mem_singleton.2 ⟨by decide, by rintro v ⟨⟩; exact .inl (by decide)⟩)
      (List.forall_mem_singleton.2 ⟨by decide, by rintro v ⟨⟩; exact .inl (by decide)⟩)
      (List.forall_mem_singleton.2 (by decide))
  rw [hwhole, hitem] at helements
  obtain ⟨⟨rfl, rfl⟩, rfl⟩ := (List.cons.inj helements).imp_left Prod.mk.inj
  rw [hwhole, hlead] at hloops
  obtain ⟨hnested, hparts⟩ := hanywhere hlist hvalue rfl
  exact ⟨hloops, hnested, by decide +kernel, hparts _ (.tail _ (.head _))⟩

end Template

end TemplateProjection
