import TemplateProjection.Proofs.Placement

/-!
The spans of a markup tree nest: what stands in an element lies between its opening tag and its end,
in order, however badly the tags of the text are paired.
-/
namespace TemplateProjection

theorem Text.eqIgnoringCase_of_ne {s t u : Text} (h : s.eqIgnoringCase t)
    (hne : u.eqIgnoringCase t = false) : u.eqIgnoringCase s = false := by
  simp only [Text.eqIgnoringCase, beq_iff_eq] at h hne ⊢
  rwa [h]

namespace Span

variable {start mid stop : Nat} {spans spans' : List Span}

/-- The spans follow one another between two offsets. -/
def InOrder : Nat → List Span → Nat → Prop
  | start, [], stop => start ≤ stop
  | start, span :: spans, stop => start ≤ span.start ∧ InOrder span.stop spans stop

theorem start_le_stop (span : Span) : span.start ≤ span.stop := Nat.le_add_right _ _

theorem InOrder.le (h : InOrder start spans stop) : start ≤ stop := by
  induction spans generalizing start with
  | nil => exact h
  | cons span spans ih =>
    have hle := ih h.2
    have hspan := span.start_le_stop
    have hstart := h.1
    omega

theorem InOrder.mono (h : InOrder start spans mid) (hle : mid ≤ stop) :
    InOrder start spans stop := by
  induction spans generalizing start with
  | nil => exact Nat.le_trans h hle
  | cons span spans ih => exact ⟨h.1, ih h.2⟩

theorem InOrder.widen (h : InOrder mid spans stop) (hle : start ≤ mid) :
    InOrder start spans stop := by
  cases spans with
  | nil => exact Nat.le_trans hle h
  | cons span spans => exact ⟨Nat.le_trans hle h.1, h.2⟩

theorem inOrder_append :
    InOrder start (spans ++ spans') stop ↔
      ∃ mid, InOrder start spans mid ∧ InOrder mid spans' stop := by
  induction spans generalizing start with
  | nil =>
    constructor
    · intro h
      exact ⟨start, Nat.le_refl _, h⟩
    · rintro ⟨mid, hle, h⟩
      exact h.widen hle
  | cons span spans ih =>
    simp only [List.cons_append, InOrder, ih]
    constructor
    · rintro ⟨hstart, mid, h, h'⟩
      exact ⟨mid, ⟨hstart, h⟩, h'⟩
    · rintro ⟨mid, ⟨hstart, h⟩, h'⟩
      exact ⟨hstart, mid, h, h'⟩

theorem InOrder.inside (h : InOrder start spans stop) :
    ∀ span ∈ spans, start ≤ span.start ∧ span.stop ≤ stop := by
  induction spans generalizing start with
  | nil => simp
  | cons first spans ih =>
    intro span hmem
    rcases List.mem_cons.1 hmem with rfl | hmem
    · exact ⟨h.1, h.2.le⟩
    · obtain ⟨hstart, hstop⟩ := ih h.2 span hmem
      have hfirst := first.start_le_stop
      have hle := h.1
      exact ⟨by omega, hstop⟩

theorem inOrder_of_pairwise (hpairwise : spans.Pairwise (·.stop ≤ ·.start))
    (hinside : ∀ span ∈ spans, start ≤ span.start ∧ span.stop ≤ stop) (hle : start ≤ stop) :
    InOrder start spans stop := by
  induction spans generalizing start with
  | nil => exact hle
  | cons span spans ih =>
    obtain ⟨hspan, hspans⟩ := List.forall_mem_cons.1 hinside
    obtain ⟨hlater, hpairwise⟩ := List.pairwise_cons.1 hpairwise
    refine ⟨hspan.1, ih hpairwise (fun later hmem => ⟨hlater later hmem, ?_⟩) hspan.2⟩
    exact (hspans later hmem).2

theorem InOrder.pairwise (h : InOrder start spans stop) :
    spans.Pairwise (·.stop ≤ ·.start) := by
  induction spans generalizing start with
  | nil => exact .nil
  | cons span spans ih => exact .cons (fun next hnext => (h.2.inside next hnext).1) (ih h.2)

end Span

namespace Markup

variable {tag : OpenTag} {node : Node} {nodes children : List Node} {span : Span}
  {endName : Option Span} {start mid stop offset : Nat} {e : Excerpt}

/-- An element with this tag and span stands in the nodes, and neither it nor any element around it
has an end tag: it is closed together with the nodes. -/
inductive LeftOpen (tag : OpenTag) (span : Span) : List Node → Prop
  | here {nodes children : List Node} (hmem : .element tag children span none ∈ nodes)
      (hopen : (tag.selfClosing || isVoid tag.name) = false) : LeftOpen tag span nodes
  | inside {outer : OpenTag} {nodes children : List Node} {outerSpan : Span}
      (hmem : .element outer children outerSpan none ∈ nodes) (h : LeftOpen tag span children) :
      LeftOpen tag span nodes

/-- How the spans of an element lie to one another. -/
structure SpansNest (tag : OpenTag) (children : List Node) (span : Span)
    (endName : Option Span) : Prop where
  openTag : tag.span.start = span.start ∧ tag.span.stop ≤ span.stop
  increasing : children.Pairwise (·.span.stop ≤ ·.span.start)
  inside : ∀ child ∈ children, tag.span.stop ≤ child.span.start ∧ child.span.stop ≤ span.stop
  endTag : ∀ name ∈ endName, tag.span.stop ≤ name.start ∧ name.stop ≤ span.stop ∧
    ∀ child ∈ children, child.span.stop ≤ name.start
  leaf : tag.selfClosing || isVoid tag.name → children = [] ∧ span = tag.span
  /-- What the end tag closes besides its element ends where the end tag starts, and has another
  name. -/
  leftOpen : ∀ name ∈ endName, ∀ inner innerSpan, LeftOpen inner innerSpan children →
    innerSpan.stop + 2 = name.start ∧ inner.name.eqIgnoringCase tag.name = false

theorem SpansNest.inOrder (h : SpansNest tag children span endName) :
    Span.InOrder tag.span.stop (children.map Node.span) span.stop :=
  Span.inOrder_of_pairwise (List.pairwise_map.2 h.increasing)
    (List.forall_mem_map.2 h.inside) h.openTag.2

/-- The spans of all elements of the node nest. -/
inductive Node.Nested : Node → Prop
  | element {tag : OpenTag} {children : List Node} {span : Span} {endName : Option Span}
      (h : SpansNest tag children span endName) (hchildren : ∀ child ∈ children, child.Nested) :
      Nested (.element tag children span endName)
  | text (t : Text) (span : Span) : Nested (.text t span)
  | comment (data : Text) (span : Span) : Nested (.comment data span)
  | declaration (t : Text) (span : Span) : Nested (.declaration t span)

theorem LeftOpen.append {nodes' : List Node} (h : LeftOpen tag span (nodes ++ nodes')) :
    LeftOpen tag span nodes ∨ LeftOpen tag span nodes' := by
  cases h with
  | here hmem hopen => exact (List.mem_append.1 hmem).imp (.here · hopen) (.here · hopen)
  | inside hmem h => exact (List.mem_append.1 hmem).imp (.inside · h) (.inside · h)

theorem LeftOpen.mono {nodes' : List Node} (h : LeftOpen tag span nodes)
    (hsub : ∀ node ∈ nodes, node ∈ nodes') : LeftOpen tag span nodes' := by
  cases h with
  | here hmem hopen => exact .here (hsub _ hmem) hopen
  | inside hmem h => exact .inside (hsub _ hmem) h

theorem not_leftOpen_nil : ¬ LeftOpen tag span [] := by
  intro h
  cases h with
  | here hmem => cases hmem
  | inside hmem => cases hmem

/-- Nothing is left open in a node that is no element or has no content. -/
theorem not_leftOpen_singleton (h : ∀ outer children outerSpan,
      node = .element outer children outerSpan none →
        (outer.selfClosing || isVoid outer.name) ∧ children = []) : ¬ LeftOpen tag span [node] := by
  intro hleft
  cases hleft with
  | here hmem hopen =>
    rw [(h _ _ _ (List.mem_singleton.1 hmem).symm).1] at hopen
    cases hopen
  | inside hmem hinside =>
    rw [(h _ _ _ (List.mem_singleton.1 hmem).symm).2] at hinside
    exact not_leftOpen_nil hinside

/-- Siblings between two offsets, of which only some elements may be left open. -/
structure Laid (allowed : OpenTag → Span → Prop) (start : Nat) (nodes : List Node) (stop : Nat) :
    Prop where
  inOrder : Span.InOrder start (nodes.map Node.span) stop
  nested : ∀ node ∈ nodes, node.Nested
  leftOpen : ∀ tag span, LeftOpen tag span nodes → allowed tag span

namespace Laid

variable {allowed allowed' : OpenTag → Span → Prop}

theorem nil (h : start ≤ stop) : Laid allowed start [] stop where
  inOrder := h
  nested := by simp
  leftOpen _ _ hleft := absurd hleft not_leftOpen_nil

theorem mono (h : Laid allowed start nodes mid) (hle : mid ≤ stop)
    (himp : ∀ tag span, allowed tag span → allowed' tag span) : Laid allowed' start nodes stop where
  inOrder := h.inOrder.mono hle
  nested := h.nested
  leftOpen tag span hopen := himp tag span (h.leftOpen tag span hopen)

theorem concat (h : Laid allowed start nodes mid) (hnode : node.Nested)
    (hle : mid ≤ node.span.start)
    (hopen : ∀ tag span, LeftOpen tag span [node] → allowed tag span) :
    Laid allowed start (nodes ++ [node]) node.span.stop where
  inOrder := by
    rw [List.map_append, List.map_singleton, Span.inOrder_append]
    exact ⟨mid, h.inOrder, hle, Nat.le_refl _⟩
  nested := List.forall_mem_append.2 ⟨h.nested, List.forall_mem_singleton.2 hnode⟩
  leftOpen tag span hleft := hleft.append.elim (h.leftOpen tag span) (hopen tag span)

/-- Without the last of them the siblings end where it starts. -/
theorem of_concat (h : Laid allowed start (nodes ++ [node]) stop) :
    Laid allowed start nodes node.span.start where
  inOrder := by
    have hall := h.inOrder
    rw [List.map_append, List.map_singleton, Span.inOrder_append] at hall
    obtain ⟨mid, hnodes, hle, -⟩ := hall
    exact hnodes.mono hle
  nested := (List.forall_mem_append.1 h.nested).1
  leftOpen tag span hleft := h.leftOpen tag span (hleft.mono fun _ => List.mem_append_left _)

theorem concat_text (h : Laid allowed start nodes mid) (t : Text) (hle : mid ≤ span.start) :
    Laid allowed start (nodes ++ [.text t span]) span.stop :=
  h.concat (.text t span) hle fun _ _ hleft => absurd hleft (not_leftOpen_singleton (by simp))

theorem appendText (h : Laid allowed start nodes e.start) :
    Laid allowed start (appendText nodes e) e.stop := by
  have hnew : Laid allowed start (nodes ++ [.text e.text e.span]) e.stop :=
    h.concat_text e.text (Nat.le_refl _)
  simp only [Markup.appendText]
  split
  · next before span hlast =>
    split
    · next hstop =>
      -- the joined text takes the place of the one before it
      obtain ⟨init, rfl⟩ := List.getLast?_eq_some_iff.1 hlast
      have hle : span.start ≤ e.stop := by
        simp only [Span.stop] at hstop
        simp only [Excerpt.stop]
        omega
      have hjoined : Laid allowed start
          (init ++ [.text (before ++ e.text) (.between span.start e.stop)])
          (Span.between span.start e.stop).stop :=
        h.of_concat.concat_text _ (Nat.le_refl _)
      rw [Span.stop_between hle] at hjoined
      rwa [List.dropLast_concat, Excerpt.cover_span hstop]
    · exact hnew
  · exact hnew

end Laid

namespace Builder

variable {b : Builder} {allowed allowed' : OpenTag → Span → Prop}

/-- The open elements lie one inside another up to `offset`, and so do the roots before them. Only
the innermost siblings hold elements that are left open. -/
def OpenIn (roots : List Node) : (OpenTag → Span → Prop) → List OpenElement → Nat → Prop
  | allowed, [], offset => Laid allowed 0 roots offset
  | allowed, e :: pending, offset =>
    Laid allowed e.tag.span.stop e.children offset ∧
      (e.tag.selfClosing || isVoid e.tag.name) = false ∧
      OpenIn roots (fun _ _ => False) pending e.tag.span.start

def Nests (allowed : OpenTag → Span → Prop) (b : Builder) (offset : Nat) : Prop :=
  OpenIn b.roots allowed b.pending offset

theorem Nests.modify {f : List Node → List Node} (h : b.Nests allowed offset)
    (hf : ∀ start nodes, Laid allowed start nodes offset → Laid allowed' start (f nodes) stop) :
    (b.modify f).Nests allowed' stop := by
  obtain ⟨roots, _ | ⟨e, pending⟩⟩ := b
  · exact hf _ _ h
  · exact ⟨hf _ _ h.1, h.2⟩

theorem Nests.mono (h : b.Nests allowed offset) (hle : offset ≤ stop)
    (himp : ∀ tag span, allowed tag span → allowed' tag span) : b.Nests allowed' stop := by
  obtain ⟨roots, _ | ⟨e, pending⟩⟩ := b
  · exact Laid.mono h hle himp
  · exact ⟨h.1.mono hle himp, h.2⟩

theorem Nests.push (h : b.Nests allowed offset) (hnode : node.Nested)
    (hle : offset ≤ node.span.start)
    (hopen : ∀ tag span, LeftOpen tag span [node] → allowed tag span) :
    (b.push node).Nests allowed node.span.stop :=
  h.modify fun _ _ hnodes => hnodes.concat hnode hle hopen

variable {roots : List Node} {top : OpenElement} {pending : List OpenElement}

/-- An element that is closed after its children nests. -/
theorem nested_close (h : Laid allowed top.tag.span.stop top.children offset)
    (hopen : (top.tag.selfClosing || isVoid top.tag.name) = false) (hle : offset ≤ stop)
    (hend : ∀ name ∈ endName, offset ≤ name.start ∧ name.stop ≤ stop ∧
      ∀ inner innerSpan, allowed inner innerSpan →
        innerSpan.stop + 2 = name.start ∧ inner.name.eqIgnoringCase top.tag.name = false) :
    (top.close stop endName).Nested := by
  have hstart := top.tag.span.start_le_stop
  have hoffset := h.inOrder.le
  have hstop : (Span.between top.tag.span.start stop).stop = stop :=
    Span.stop_between (by omega)
  have hinside := h.inOrder.inside
  refine .element ⟨?_, ?_, ?_, ?_, ?_, ?_⟩ h.nested
  · exact ⟨rfl, by omega⟩
  · exact List.pairwise_map.1 h.inOrder.pairwise
  · intro child hchild
    obtain ⟨hafter, hbefore⟩ := hinside _ (List.mem_map_of_mem hchild)
    exact ⟨hafter, by omega⟩
  · intro name hname
    obtain ⟨hafter, hbefore, -⟩ := hend name hname
    refine ⟨by omega, by omega, fun child hchild => ?_⟩
    have hchild := (hinside _ (List.mem_map_of_mem hchild)).2
    omega
  · intro hleaf
    rw [hopen] at hleaf
    cases hleaf
  · intro name hname inner innerSpan hleft
    exact (hend name hname).2.2 inner innerSpan (h.leftOpen inner innerSpan hleft)

theorem LeftOpen.of_close (h : LeftOpen tag span [top.close stop endName]) :
    endName = none ∧ (tag = top.tag ∧ span = .between top.tag.span.start stop ∨
      LeftOpen tag span top.children) := by
  cases h with
  | here hmem =>
    obtain ⟨rfl, rfl, rfl, rfl⟩ := Node.element.inj (List.mem_singleton.1 hmem)
    exact ⟨rfl, Or.inl ⟨rfl, rfl⟩⟩
  | inside hmem h =>
    obtain ⟨rfl, rfl, rfl, rfl⟩ := Node.element.inj (List.mem_singleton.1 hmem)
    exact ⟨rfl, Or.inr h⟩

/-- Closing the innermost element adds it to the siblings around it. -/
theorem Nests.closeInnermost (h : Nests allowed ⟨roots, top :: pending⟩ offset)
    (hle : offset ≤ stop)
    (hend : ∀ name ∈ endName, offset ≤ name.start ∧ name.stop ≤ stop ∧
      ∀ inner innerSpan, allowed inner innerSpan →
        innerSpan.stop + 2 = name.start ∧ inner.name.eqIgnoringCase top.tag.name = false)
    (hnone : endName = none → (∀ span, span.stop = stop → allowed' top.tag span) ∧
      ∀ tag span, allowed tag span → allowed' tag span) :
    ((Builder.mk roots pending).push (top.close stop endName)).Nests allowed' stop := by
  obtain ⟨hchildren, hopen, houter⟩ := h
  have hstart := top.tag.span.start_le_stop
  have hoffset := hchildren.inOrder.le
  have hstop : (top.close stop endName).span.stop = stop := Span.stop_between (by omega)
  have hsiblings : Nests allowed' ⟨roots, pending⟩ top.tag.span.start :=
    Nests.mono houter (Nat.le_refl _) fun _ _ hfalse => hfalse.elim
  have hpush := hsiblings.push (nested_close hchildren hopen hle hend) (Nat.le_refl _) ?_
  · rwa [hstop] at hpush
  · intro tag span hleft
    obtain ⟨hnoEnd, ⟨rfl, rfl⟩ | hinside⟩ := LeftOpen.of_close hleft
    · exact (hnone hnoEnd).1 _ hstop
    · exact (hnone hnoEnd).2 tag span (hchildren.leftOpen tag span hinside)

theorem Nests.close (h : b.Nests (fun _ _ => False) e.start)
    (hmark : ∃ u, e.text = '<' :: '/' :: u) :
    (b.close e).Nests (fun _ _ => False) e.stop := by
  have hlen : 2 + (endTagName e.text).byteLength ≤ e.text.byteLength := by
    obtain ⟨u, hu⟩ := hmark
    rw [hu]
    exact byteLength_endTagName_le u
  have hle : e.start ≤ e.stop := Nat.le_add_right _ _
  -- until the element of this name is reached, the elements inside end where the end tag starts
  let inside : OpenTag → Span → Prop := fun tag span =>
    span.stop = e.start ∧ tag.name.eqIgnoringCase (endTagName e.text) = false
  have hinside : b.Nests inside e.start := h.mono (Nat.le_refl _) fun _ _ hfalse => hfalse.elim
  have hstep : ∀ roots top pending, Nests inside ⟨roots, top :: pending⟩ e.start →
      top.tag.name.eqIgnoringCase (endTagName e.text) = false →
      ((Builder.mk roots pending).push (top.close e.start none)).Nests inside e.start := by
    intro roots top pending htop hother
    exact htop.closeInnermost (Nat.le_refl _) (by simp)
      fun _ => ⟨fun _ hstop => ⟨hstop, hother⟩, fun _ _ => id⟩
  rcases close_cases (P := fun b => b.Nests inside e.start) hinside hstep with
    hsame | ⟨top, outer, htop, hname, hclose⟩
  · rw [hsame]
    exact h.mono hle fun _ _ => id
  · rw [hclose]
    refine htop.closeInnermost hle ?_ (by simp)
    rintro name ⟨⟩
    refine ⟨by simp, ?_, ?_⟩
    · simp only [Span.stop, Excerpt.stop]
      omega
    · rintro inner innerSpan ⟨hstop, hother⟩
      exact ⟨by rw [hstop], Text.eqIgnoringCase_of_ne hname hother⟩

/-- An element without content has the span of its tag. -/
theorem nested_leaf (tag : OpenTag) : (Node.element tag [] tag.span none).Nested := by
  refine .element ⟨⟨rfl, Nat.le_refl _⟩, .nil, ?_, ?_, fun _ => ⟨rfl, rfl⟩, ?_⟩ ?_ <;> simp

theorem Nests.openTag (h : b.Nests (fun _ _ => False) tag.span.start) :
    (b.openTag tag).Nests (fun _ _ => False) tag.span.stop := by
  simp only [Builder.openTag]
  split
  · next hleaf =>
    refine h.push (nested_leaf tag) (Nat.le_refl _) fun _ _ => not_leftOpen_singleton ?_
    rintro outer children outerSpan ⟨⟩
    exact ⟨hleaf, rfl⟩
  · next hopen => exact ⟨.nil (Nat.le_refl _), by simpa using hopen, h⟩

theorem Nests.step {token : Token} (h : b.Nests (fun _ _ => False) token.start)
    (hmark : token.kind = .endTag → ∃ u, token.text = '<' :: '/' :: u) :
    (b.step token).Nests (fun _ _ => False) token.stop := by
  simp only [Builder.step]
  split
  · exact h.modify fun _ _ hnodes => hnodes.appendText
  · exact h.modify fun _ _ hnodes => hnodes.appendText
  · exact h.push (.comment _ token.span) (Nat.le_refl _)
      fun _ _ => not_leftOpen_singleton (by simp)
  · exact h.push (.declaration _ token.span) (Nat.le_refl _)
      fun _ _ => not_leftOpen_singleton (by simp)
  · have hopen : b.Nests (fun _ _ => False) (OpenTag.ofExcerpt token.toExcerpt).span.start := h
    exact hopen.openTag
  · next hkind => exact h.close (hmark hkind)

theorem Nests.foldl {tokens : List Token} (h : b.Nests (fun _ _ => False) offset)
    (hadjacent : Token.Adjacent offset tokens stop)
    (hmark : ∀ token ∈ tokens, token.kind = .endTag → ∃ u, token.text = '<' :: '/' :: u) :
    (tokens.foldl Builder.step b).Nests (fun _ _ => False) stop := by
  induction tokens generalizing b offset with
  | nil =>
    obtain rfl : offset = stop := hadjacent
    exact h
  | cons token tokens ih =>
    obtain ⟨rfl, -, hadjacent⟩ := hadjacent
    obtain ⟨htoken, htokens⟩ := List.forall_mem_cons.1 hmark
    exact ih (h.step htoken) hadjacent htokens

end Builder

theorem parse_laid (t : Text) : Laid (fun _ _ => True) 0 (parse t) t.byteLength := by
  have hread : ((Token.lex t).foldl Builder.step ⟨[], []⟩).Nests (fun _ _ => False)
      (0 + t.byteLength) :=
    Builder.Nests.foldl (.nil (Nat.le_refl _)) (Token.lexFrom_adjacent 0 t)
      fun token htoken => (Token.lexFrom_startsAsKind token htoken).2
  rw [Nat.zero_add] at hread
  have hall := parse_induction (P := fun b => b.Nests (fun _ _ => True) t.byteLength)
    (hread.mono (Nat.le_refl _) fun _ _ _ => trivial) fun _ _ _ h =>
      h.closeInnermost (Nat.le_refl _) (by simp) fun _ => ⟨fun _ _ => trivial, fun _ _ => id⟩
  exact hall

/-- The roots of a tree lie in its text in order, and the spans of all its elements nest. -/
theorem parse_spans_nest (t : Text) :
    (parse t).Pairwise (·.span.stop ≤ ·.span.start) ∧
      (∀ root ∈ parse t, root.span.stop ≤ t.byteLength) ∧
      ∀ root ∈ parse t, root.Nested := by
  have hroots := parse_laid t
  exact ⟨List.pairwise_map.1 hroots.inOrder.pairwise,
    fun root hroot => (hroots.inOrder.inside _ (List.mem_map_of_mem hroot)).2, hroots.nested⟩

end Markup

end TemplateProjection
