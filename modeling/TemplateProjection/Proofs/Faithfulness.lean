import TemplateProjection.Proofs.Expressions
import TemplateProjection.Proofs.Locations
import TemplateProjection.Proofs.Names

/-!
A template is faithful to its source: every location, tag, attribute and expression is what stands
in the source at its place.
-/
namespace TemplateProjection.Template

variable {source : Text} {e : Excerpt}

/-- The content is what stands at the span, with characters for the references in it. -/
def Expression.WrittenIn (source : Text) (x : Expression) : Prop :=
  ∃ t, source.slice? x.span = some t ∧ x.content = Entity.normalize t

/-- A static argument is what stands at the span. A computed one stands there in brackets. -/
def Expression.ArgumentIn (source : Text) (x : Expression) : Prop :=
  ∃ t, source.slice? x.span = some t ∧
    if x.isStatic then t.head? ≠ some '[' ∧ x.content = t
    else t.head? = some '[' ∧
      x.content = Text.dropTrailing (· == ']') (t.dropWhile (· == '['))

/-- The condition that an attribute states. Without a value it is `true`, at the attribute's end. -/
def Expression.StatedBy (source : Text) (a : Markup.Attribute) (x : Expression) : Prop :=
  match a.value with
  | some v => x.span = v.span ∧ x.WrittenIn source
  | none => x.content = "true".toList ∧ x.span = .empty a.span.stop

structure Attribute.FaithfulTo (source : Text) (a : Attribute) : Prop where
  loc : a.loc.In source
  name : a.name <+: a.loc.text
  value : ∀ v ∈ a.value, ∃ span t, a.loc.span.contains span ∧ source.slice? span = some t ∧
    v = Entity.normalize t

structure Directive.FaithfulTo (source : Text) (d : Directive) : Prop where
  loc : d.loc.In source
  argument : ∀ x ∈ d.argument, x.ArgumentIn source
  value : ∀ x ∈ d.value, x.WrittenIn source

def Property.FaithfulTo (source : Text) : Property → Prop
  | .attribute a => a.FaithfulTo source
  | .directive d => d.FaithfulTo source

structure ElementHead.FaithfulTo (source : Text) (head : ElementHead) : Prop where
  loc : head.loc.In source
  tag : source.slice? head.tagSpan = some head.tag
  properties : ∀ p ∈ head.properties, p.FaithfulTo source
  /-- The properties stand at attributes of the opening tag that starts the element. -/
  openTag : ∃ tag : Markup.OpenTag, tag.StandsIn source ∧ tag.span.start = head.loc.start ∧
    (head.properties.map (·.loc.span)).Sublist (tag.attributes.map (·.span))

mutual

/-- Whatever the node holds is what stands in the source at its place. -/
inductive Node.FaithfulTo (source : Text) : Node → Prop
  | element {head : ElementHead} {children : List Node} (hhead : head.FaithfulTo source)
      (hchildren : ∀ node ∈ children, Node.FaithfulTo source node) :
      Node.FaithfulTo source (.element head children)
  | text {t : Text} {span : Span} (h : source.slice? span = some t) :
      Node.FaithfulTo source (.text (Entity.normalize t) span)
  | comment {t : Text} {span : Span} (h : source.slice? span = some t) :
      Node.FaithfulTo source (.comment (Markup.commentData t) span)
  | interpolation {value : Expression} {loc : Excerpt} (hvalue : value.WrittenIn source)
      (hloc : loc.In source) : Node.FaithfulTo source (.interpolation value loc)
  | conditional {branches : List Branch} {loc : Excerpt}
      (hbranches : ∀ branch ∈ branches, Branch.FaithfulTo source branch) (hloc : loc.In source) :
      Node.FaithfulTo source (.conditional branches loc)
  | loop {clause : LoopClause} {children : List Node} {loc : Excerpt}
      (hclause : ∀ x ∈ clause.expressions, x.WrittenIn source)
      (hchildren : ∀ node ∈ children, Node.FaithfulTo source node) (hloc : loc.In source) :
      Node.FaithfulTo source (.loop clause children loc)
  | other {kind : Text} {loc : Excerpt} (hloc : loc.In source) :
      Node.FaithfulTo source (.other kind loc)

/-- The condition is stated by an attribute of the opening tag that starts the branch. -/
inductive Branch.FaithfulTo (source : Text) : Branch → Prop
  | mk {condition : Option Expression} {children : List Node} {loc : Excerpt}
      (hcondition : ∀ x ∈ condition, ∃ tag : Markup.OpenTag, tag.StandsIn source ∧
        tag.span.start = loc.start ∧ ∃ a ∈ tag.attributes,
          (a.name = "v-if".toList ∨ a.name = "v-else-if".toList) ∧ x.StatedBy source a)
      (hchildren : ∀ node ∈ children, Node.FaithfulTo source node) (hloc : loc.In source) :
      Branch.FaithfulTo source (.mk condition children loc)

end

theorem Expression.writtenIn_ofExcerpt (h : e.In source) :
    (Expression.ofExcerpt e).WrittenIn source :=
  ⟨e.text, Excerpt.in_iff_slice?.1 h, rfl⟩

theorem argumentExpression_argumentIn (h : e.In source) :
    (argumentExpression e).ArgumentIn source := by
  refine ⟨e.text, by rw [argumentExpression_span]; exact Excerpt.in_iff_slice?.1 h, ?_⟩
  simp only [argumentExpression, beq_iff_eq]
  split
  · next hbracket => exact ⟨hbracket, rfl⟩
  · next hbracket => exact ⟨hbracket, rfl⟩

theorem conditionOf_statedBy {a : Markup.Attribute} (h : a.PlacedIn source) :
    (conditionOf a).StatedBy source a := by
  cases hv : a.value with
  | some v =>
    simp only [Expression.StatedBy, conditionOf, hv]
    exact ⟨rfl, v.text, h.value v hv, rfl⟩
  | none =>
    simp only [Expression.StatedBy, conditionOf, hv]
    exact ⟨trivial, trivial⟩

section Properties

variable {a : Markup.Attribute}

theorem locate_attribute (h : a.PlacedIn source) :
    (locate source a.span).In source ∧ (locate source a.span).span = a.span := by
  refine locate_in ?_ h.stop
  obtain ⟨before, after, hsource, hbefore, -⟩ := Text.slice?_eq_some_iff.1 h.name
  rw [h.start]
  exact ⟨before, a.name ++ after, by simp [hsource], hbefore⟩

theorem loc_propertyOf (source : Text) (a : Markup.Attribute) :
    (propertyOf source a).loc = locate source a.span := by
  simp only [propertyOf]
  split <;> rfl

/-- The property that an attribute stands for is what is written there. -/
theorem propertyOf_faithfulTo (h : a.PlacedIn source) (hencloses : a.Encloses) :
    (propertyOf source a).FaithfulTo source := by
  obtain ⟨hloc, hspan⟩ := locate_attribute h
  simp only [propertyOf]
  split
  · refine ⟨hloc, ?_, ?_⟩
    · have hslice := Excerpt.in_iff_slice?.1 hloc
      rw [hspan] at hslice
      have hstart := hencloses.start
      have hname := hencloses.name
      simp only [Span.stop] at hname
      exact Text.isPrefix_of_slice? h.name hslice hstart.symm (by omega)
    · intro v hv
      obtain ⟨w, hw, rfl⟩ := Option.map_eq_some_iff.1 hv
      refine ⟨w.span, w.text, ?_, h.value w hw, rfl⟩
      have hvalue := hencloses.value w hw
      have hstart := hencloses.start
      have hname := a.nameSpan.start_le_stop
      rw [Span.contains_iff, hspan]
      omega
  · next d hread =>
    obtain ⟨before, after, hsource, hbefore, -⟩ := Text.slice?_eq_some_iff.1 h.name
    have hin : (Excerpt.mk a.nameSpan.start a.name).In source := ⟨before, after, hsource, hbefore⟩
    refine ⟨hloc, ?_, ?_⟩
    · intro x hx
      obtain ⟨e, he, rfl⟩ := Option.map_eq_some_iff.1 hx
      exact argumentExpression_argumentIn (DirectiveName.read?_in hin hread e he)
    · intro x hx
      obtain ⟨v, hv, rfl⟩ := Option.map_eq_some_iff.1 hx
      exact ⟨v.text, h.value v hv, rfl⟩

end Properties

theorem textNodes_faithfulTo (h : e.In source) :
    ∀ node ∈ textNodes e, node.FaithfulTo source := by
  intro node hnode
  rcases mem_textNodes hnode with ⟨text, hs, rfl⟩ | ⟨inner, hs, rfl⟩
  · exact .text (Excerpt.in_iff_slice?.1 (segments_in h _ hs).1)
  · obtain ⟨hcontent, hexcerpt⟩ := segments_in h _ hs
    exact .interpolation (Expression.writtenIn_ofExcerpt hcontent.trim) hexcerpt

theorem Branch.FaithfulTo.loc_in {b : Branch} (h : b.FaithfulTo source) : b.loc.In source := by
  cases h with
  | mk _ _ hloc => exact hloc

theorem gather_faithfulTo {pieces : List Piece}
    (h : ∀ piece ∈ pieces, piece.All (Node.FaithfulTo source) (Branch.FaithfulTo source)) :
    ∀ node ∈ gather source pieces, node.FaithfulTo source := by
  refine gather_forall (fun b hb => ?_) (fun branches loc b hnode hb => ?_) h
  · exact .conditional (List.forall_mem_singleton.2 hb) hb.loc_in
  · cases hnode with
    | conditional hbranches hloc =>
      exact .conditional (List.forall_mem_append.2 ⟨hbranches, List.forall_mem_singleton.2 hb⟩)
        (locate_cover_in hloc hb.loc_in)

section Elements

variable {tag : Markup.OpenTag} {stop : Nat}

/-- A condition is stated by one of the attributes. -/
theorem branchKind?_statedBy {kind : BranchKind} (htag : tag.StandsIn source)
    (hkind : branchKind? tag.attributes = some kind) :
    ∀ x ∈ kind.condition?, ∃ a ∈ tag.attributes,
      (a.name = "v-if".toList ∨ a.name = "v-else-if".toList) ∧ x.StatedBy source a := by
  obtain ⟨a, ha, hsome⟩ := List.mem_filterMap.1 (List.mem_of_getLast? hkind)
  have hstated := conditionOf_statedBy (htag.readIn.attributes a ha)
  intro x hx
  simp only [BranchKind.ofAttribute?] at hsome
  split at hsome
  · next hname =>
    cases hsome
    cases hx
    exact ⟨a, ha, Or.inl hname, hstated⟩
  · split at hsome
    · next hname =>
      cases hsome
      cases hx
      exact ⟨a, ha, Or.inr hname, hstated⟩
    · split at hsome
      · cases hsome
        cases hx
      · cases hsome

theorem loopClause?_writtenIn {clause : LoopClause} (htag : tag.StandsIn source)
    (hclause : loopClause? tag.attributes = some clause) :
    ∀ x ∈ clause.expressions, x.WrittenIn source := by
  obtain ⟨a, ha, rfl⟩ := Option.map_eq_some_iff.1 hclause
  have hmem := (List.mem_filter.1 (List.mem_of_getLast? ha)).1
  intro x hx
  obtain ⟨e, he, rfl⟩ := LoopClause.ofAttribute_cases (htag.readIn.attributes a hmem) x hx
  exact Expression.writtenIn_ofExcerpt he

/-- The properties of an element stand where its attributes do. -/
theorem map_span_propertyOf (htag : tag.StandsIn source) :
    ((tag.attributes.filter (!isStructural ·)).map (propertyOf source)).map (·.loc.span) =
      (tag.attributes.filter (!isStructural ·)).map (·.span) := by
  rw [List.map_map]
  refine List.map_congr_left fun a ha => ?_
  rw [Function.comp_apply, loc_propertyOf]
  exact (locate_attribute (htag.readIn.attributes a (List.mem_filter.1 ha).1)).2

/-- The head that an element gets from its opening tag. -/
theorem head_faithfulTo {head : ElementHead} (htag : tag.StandsIn source)
    (hstop : (Excerpt.mk stop []).In source) (hname : head.tag = tag.name)
    (hloc : head.loc = locate source (.between tag.span.start stop))
    (hproperties : head.properties =
      (tag.attributes.filter (!isStructural ·)).map (propertyOf source)) :
    head.FaithfulTo source := by
  have hplaced := htag.readIn.attributes
  refine ⟨?_, ?_, fun p hp => ?_, tag, htag, ?_, ?_⟩
  · rw [hloc]
    exact locate_between_in htag.start_in hstop
  · rw [ElementHead.tagSpan, hname, hloc]
    exact htag.readIn.slice?_name
  · rw [hproperties] at hp
    obtain ⟨a, ha, rfl⟩ := List.mem_map.1 hp
    have hmem := (List.mem_filter.1 ha).1
    exact propertyOf_faithfulTo (hplaced a hmem) (htag.encloses a hmem)
  · rw [hloc]
    rfl
  · rw [hproperties, map_span_propertyOf htag]
    exact List.Sublist.map _ List.filter_sublist

theorem elementPiece_faithfulTo {endName : Option Span} {children : List Node}
    (htag : tag.StandsIn source) (hstop : (Excerpt.mk stop []).In source)
    (hchildren : ∀ node ∈ children, node.FaithfulTo source) :
    ∀ piece ∈ elementPiece source tag (.between tag.span.start stop) endName children,
      piece.All (Node.FaithfulTo source) (Branch.FaithfulTo source) := by
  have hloc := locate_between_in htag.start_in hstop
  -- an element, unless its tag only stands for the children
  have hbody : ∀ (unwraps : Bool) (head : ElementHead), head.FaithfulTo source →
      ∀ node ∈ (if unwraps then children else [.element head children]),
        node.FaithfulTo source := by
    intro unwraps head hhead
    cases unwraps with
    | true => exact hchildren
    | false => exact List.forall_mem_singleton.2 (.element hhead hchildren)
  have hloop : ∀ (clause : LoopClause) (body : List Node),
      loopClause? tag.attributes = some clause → (∀ node ∈ body, node.FaithfulTo source) →
      ∀ node ∈ [Node.loop clause body (locate source (.between tag.span.start stop))],
        node.FaithfulTo source := by
    intro clause body hclause hbody
    exact List.forall_mem_singleton.2 (.loop (loopClause?_writtenIn htag hclause) hbody hloc)
  have hhead : ElementHead.FaithfulTo source ⟨tag.name,
      (tag.attributes.filter (!isStructural ·)).map (propertyOf source),
      locate source (.between tag.span.start stop), endName, tag.selfClosing⟩ :=
    head_faithfulTo htag hstop rfl rfl rfl
  simp only [elementPiece]
  split
  · next kind hkind =>
    rw [List.forall_mem_singleton]
    refine .mk (fun x hx => ⟨tag, htag, rfl, branchKind?_statedBy htag hkind x hx⟩) ?_ hloc
    split
    · next clause hclause => exact hloop clause _ hclause (hbody _ _ hhead)
    · exact hbody _ _ hhead
  · rw [List.forall_mem_map]
    split
    · next clause hclause => exact hloop clause _ hclause (hbody _ _ hhead)
    · exact hbody _ _ hhead

end Elements

theorem piecesOf_faithfulTo {node : Markup.Node} (h : node.ReadIn source)
    (htags : node.TagsStandIn source) :
    ∀ piece ∈ piecesOf source node,
      piece.All (Node.FaithfulTo source) (Branch.FaithfulTo source) := by
  induction h with
  | element _ _ hstop _ ih =>
    cases htags with
    | element htag hchildren =>
      refine elementPiece_faithfulTo htag hstop (gather_faithfulTo ?_)
      rw [piecesOfAll_eq]
      intro piece hpiece
      obtain ⟨child, hchild, hpiece⟩ := List.mem_flatMap.1 hpiece
      exact ih child hchild (hchildren child hchild) piece hpiece
  | text he =>
    intro piece hpiece
    obtain ⟨node, hnode, rfl⟩ := List.mem_map.1 hpiece
    exact textNodes_faithfulTo he node hnode
  | comment he => exact List.forall_mem_singleton.2 (.comment (Excerpt.in_iff_slice?.1 he))
  | declaration he =>
    refine List.forall_mem_singleton.2 (.other (locate_in ?_ ?_).1)
    · exact he.atStart
    · exact he.atStop

/-- An attribute is not empty, since its name is not. -/
theorem length_pos_of_encloses {a : Markup.Attribute} (h : a.PlacedIn source)
    (hencloses : a.Encloses) : 0 < a.span.length := by
  obtain ⟨c, t, hname⟩ := List.exists_cons_of_ne_nil hencloses.nonempty
  obtain ⟨_, _, _, _, hlen⟩ := Text.slice?_eq_some_iff.1 h.name
  have hpos := c.utf8Size_pos
  have hstart := hencloses.start
  have hstop := hencloses.name
  rw [hname, Text.byteLength_cons] at hlen
  simp only [Span.stop] at hstop
  omega

/-- A template is faithful to its source: every location, tag, attribute and expression is what
stands at its place. The attributes of an opening tag stand one behind another inside the tag. -/
theorem parse_faithful (source : Text) :
    (∀ node ∈ parse source, node.FaithfulTo source) ∧
      ∀ tag : Markup.OpenTag, tag.StandsIn source →
        (tag.attributes.map (·.span)).Pairwise (·.stop ≤ ·.start) ∧
          ∀ a ∈ tag.attributes, 0 < a.span.length ∧
            tag.span.start + 1 + tag.name.byteLength ≤ a.span.start ∧
            a.span.stop ≤ tag.span.stop := by
  refine ⟨gather_faithfulTo fun piece hpiece => ?_, fun tag htag => ⟨htag.inOrder.pairwise, ?_⟩⟩
  · rw [piecesOfAll_eq] at hpiece
    obtain ⟨node, hnode, hpiece⟩ := List.mem_flatMap.1 hpiece
    exact piecesOf_faithfulTo (Markup.parse_readIn source node hnode)
      (Markup.tagsStandIn_parse source node hnode) piece hpiece
  · intro a ha
    exact ⟨length_pos_of_encloses (htag.readIn.attributes a ha) (htag.encloses a ha),
      htag.inOrder.inside a.span (List.mem_map_of_mem ha)⟩

/-- A condition without a value, an argument in brackets, a reference, a stray `/` and a quoted `>`
in one tag. -/
theorem parse_faithful_crowded :
    let source := "<p v-if :[k].m=\"a&lt;b\" é=x/ y='>'>\x7b\x7b n \x7d\x7d</p>".toList
    let tag := Markup.OpenTag.ofExcerpt ⟨0, "<p v-if :[k].m=\"a&lt;b\" é=x/ y='>'>".toList⟩
    (∃ node ∈ parse source, node.FaithfulTo source) ∧ tag.StandsIn source ∧
      tag.attributes.map (·.span) = [⟨3, 4⟩, ⟨8, 15⟩, ⟨24, 5⟩, ⟨30, 5⟩] ∧
      (tag.attributes.map (·.span)).Pairwise (·.stop ≤ ·.start) := by
  intro source tag
  have hne : (parse source).isEmpty = false := by decide +kernel
  obtain ⟨node, rest, hparse⟩ := List.exists_cons_of_ne_nil
    (show parse source ≠ [] by simpa using hne)
  have htag : tag.StandsIn source :=
    ⟨⟨⟨0, "<p v-if :[k].m=\"a&lt;b\" é=x/ y='>'>".toList⟩, .openTag⟩, by decide +kernel, rfl, rfl⟩
  exact ⟨⟨node, hparse ▸ List.mem_cons_self,
      (parse_faithful source).1 node (hparse ▸ List.mem_cons_self)⟩,
    htag, by decide +kernel, ((parse_faithful source).2 tag htag).1⟩

end TemplateProjection.Template
