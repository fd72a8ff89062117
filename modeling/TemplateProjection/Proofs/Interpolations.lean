import TemplateProjection.Proofs.Regrouping
import TemplateProjection.Proofs.Words

/-!
How a text of the markup is divided at its interpolations. The texts and interpolations of a
template are those of the texts of its markup, one after another. An interpolation ends at the first
closing braces after its opening ones. Between two interpolations all is plain text, and only blank
plain text has no node.
-/
namespace TemplateProjection

/-- What a list of spans leaves free between two offsets: before each span, and after the last. -/
def Span.gaps (start stop : Nat) : List Span → List Span
  | [] => [.between start stop]
  | span :: spans => .between start span.start :: gaps span.stop stop spans

namespace Text

variable {needle t before after : Text}

/-- Nothing occurs before its first occurrence. -/
theorem length_le_of_around? (h : around? needle t = some (before, after)) {a b : Text}
    (hoccurs : t = a ++ needle ++ b) : before.length ≤ a.length := by
  induction t generalizing before a with
  | nil =>
    simp only [around?] at h
    split at h <;> simp_all
  | cons c t ih =>
    simp only [around?] at h
    split at h
    · cases h
      exact Nat.zero_le _
    · next hnone =>
      obtain ⟨⟨before, after⟩, hrest, heq⟩ := Option.map_eq_some_iff.1 h
      cases heq
      cases a with
      | nil =>
        have hstart : needle <+: c :: t := ⟨b, hoccurs.symm⟩
        rw [← isSome_after?_iff, hnone] at hstart
        cases hstart
      | cons d a => exact Nat.succ_le_succ (ih hrest (List.cons.inj hoccurs).2)

theorem not_infix_of_around?_eq_none (h : around? needle t = none) : ¬ needle <:+: t := by
  rintro ⟨a, b, hoccurs⟩
  induction t generalizing a with
  | nil =>
    simp only [around?] at h
    split at h <;> simp_all
  | cons c t ih =>
    simp only [around?] at h
    split at h
    · cases h
    · next hnone =>
      cases a with
      | nil =>
        have hstart : needle <+: c :: t := ⟨b, hoccurs⟩
        rw [← isSome_after?_iff, hnone] at hstart
        cases hstart
      | cons d a => exact ih (Option.map_eq_none_iff.1 h) a (List.cons.inj hoccurs).2

theorem not_infix_before (h : around? needle t = some (before, after)) (hne : needle ≠ []) :
    ¬ needle <:+: before := by
  rintro ⟨a, b, hoccurs⟩
  have happ := append_of_around? h
  have hle := length_le_of_around? h (a := a) (b := b ++ needle ++ after) (by
    rw [← happ, ← hoccurs]
    simp only [List.append_assoc])
  have hlength := congrArg List.length hoccurs
  have hpos := List.length_pos_iff.2 hne
  simp only [List.length_append] at hlength
  omega

theorem trim_isEmpty (t : Text) : t.trim.isEmpty = t.allBlank := by
  rw [Bool.eq_iff_iff, List.isEmpty_iff, trim_eq_nil_iff, words_eq_nil_iff, allBlank,
    List.all_eq_true]

end Text

namespace Template

variable {source t before inner after : Text} {e : Excerpt}

/-- The plain text before an interpolation has no opening braces, and the inside is closed by the
first closing braces. -/
theorem firstInterpolation?_first (h : firstInterpolation? t = some (before, inner, after)) :
    ¬ openBraces <:+: before ∧
      ∀ a b, inner ++ closeBraces = a ++ closeBraces ++ b → b = [] := by
  simp only [firstInterpolation?, Option.bind_eq_bind, Option.bind_eq_some_iff] at h
  obtain ⟨⟨before', rest⟩, hopen, ⟨inner', after'⟩, hclose, heq⟩ := h
  cases heq
  refine ⟨Text.not_infix_before hopen (by decide), fun a b hoccurs => ?_⟩
  have hle := Text.length_le_of_around? hclose (a := a) (b := b ++ after') (by
    rw [← Text.append_of_around? hclose, hoccurs]
    simp only [List.append_assoc])
  have hlength := congrArg List.length hoccurs
  simp only [List.length_append] at hlength
  exact List.length_eq_zero_iff.1 (by omega)

/-- Without an interpolation, no opening braces have closing ones after them. -/
theorem firstInterpolation?_eq_none (h : firstInterpolation? t = none) (a b c : Text) :
    t ≠ a ++ openBraces ++ b ++ closeBraces ++ c := by
  intro hoccurs
  have hopened : t = a ++ openBraces ++ (b ++ closeBraces ++ c) := by
    rw [hoccurs]
    simp only [List.append_assoc]
  cases hopen : Text.around? openBraces t with
  | none => exact Text.not_infix_of_around?_eq_none hopen ⟨a, _, hopened.symm⟩
  | some parts =>
    obtain ⟨before, rest⟩ := parts
    have hclose : Text.around? closeBraces rest = none := by
      simp only [firstInterpolation?, hopen, Option.bind_eq_bind, Option.bind_some] at h
      cases hclose : Text.around? closeBraces rest with
      | none => rfl
      | some parts => simp [hclose] at h
    -- The first opening braces come no later, so the closing ones come after them too.
    have hle := Text.length_le_of_around? hopen hopened
    have happ := Text.append_of_around? hopen
    have hsuffix : b ++ closeBraces ++ c <:+ rest := by
      refine List.suffix_of_suffix_length_le ⟨_, hopened.symm⟩ ⟨_, happ⟩ ?_
      have hlength := congrArg List.length (happ.trans hopened)
      simp only [List.length_append] at hlength ⊢
      omega
    exact Text.not_infix_of_around?_eq_none hclose
      (List.IsInfix.trans ⟨b, c, rfl⟩ hsuffix.isInfix)

def Segment.plain? : Segment → Option Excerpt
  | .plain text => some text
  | .interpolation _ => none

def Segment.inner? : Segment → Option Excerpt
  | .plain _ => none
  | .interpolation inner => some inner

/-- The plain texts of a text, empty ones included. -/
def plainTexts (e : Excerpt) : List Excerpt := (segments e).filterMap Segment.plain?

/-- The insides of the interpolations of a text. -/
def inners (e : Excerpt) : List Excerpt := (segments e).filterMap Segment.inner?

/-- The interpolation around an inside. -/
def enclose (inner : Excerpt) : Excerpt := (Segment.interpolation inner).excerpt

theorem between_eq_span (e : Excerpt) : Span.between e.start e.stop = e.span := by
  rw [Span.between, Excerpt.stop, Nat.add_sub_cancel_left]
  rfl

/-- Between the interpolations of a text stand its plain texts. -/
theorem gaps_inners (e : Excerpt) :
    Span.gaps e.start e.stop ((inners e).map fun inner => (enclose inner).span) =
      (plainTexts e).map Excerpt.span := by
  simp only [inners, plainTexts]
  fun_induction segments e with
  | case1 e hnone =>
    show [Span.between e.start e.stop] = [e.span]
    rw [between_eq_span]
  | case2 e before inner after hfirst _ innerStart ih =>
    have hstop : (Excerpt.mk (innerStart + inner.byteLength + 2) after).stop = e.stop :=
      firstInterpolation?_stop hfirst
    have hnext : (enclose ⟨innerStart, inner⟩).span.stop = innerStart + inner.byteLength + 2 :=
      Segment.stop_interpolation _ inner
    rw [hstop] at ih
    simp only [List.filterMap_cons, Segment.inner?, Segment.plain?, List.map_cons, Span.gaps]
    rw [hnext, ih]
    exact congrArg (· :: _) (between_eq_span ⟨e.start, before⟩)

/-- Plain text before an interpolation has no opening braces, and the last plain text has none that
are closed. -/
theorem plainTexts_braces (e : Excerpt) :
    ∃ init last, plainTexts e = init ++ [last] ∧ (∀ text ∈ init, ¬ openBraces <:+: text.text) ∧
      ∀ a b c, last.text ≠ a ++ openBraces ++ b ++ closeBraces ++ c := by
  simp only [plainTexts]
  fun_induction segments e with
  | case1 e hnone => exact ⟨[], e, rfl, by simp, firstInterpolation?_eq_none hnone⟩
  | case2 e before inner after hfirst _ innerStart ih =>
    obtain ⟨init, last, hplain, hinit, hlast⟩ := ih
    refine ⟨⟨e.start, before⟩ :: init, last, ?_, ?_, hlast⟩
    · simp only [List.filterMap_cons, Segment.plain?, hplain, List.cons_append]
    · exact List.forall_mem_cons.2 ⟨(firstInterpolation?_first hfirst).1, hinit⟩

/-- Two bytes stand before an inside, and the next closing braces are its own. -/
theorem inners_braces (e : Excerpt) :
    ∀ inner ∈ inners e, 2 ≤ inner.start ∧
      ∀ a b, inner.text ++ closeBraces = a ++ closeBraces ++ b → b = [] := by
  simp only [inners]
  fun_induction segments e with
  | case1 e hnone => simp [Segment.inner?]
  | case2 e before inner after hfirst _ innerStart ih =>
    simp only [List.filterMap_cons, Segment.inner?]
    exact List.forall_mem_cons.2
      ⟨⟨Nat.le_add_left _ _, (firstInterpolation?_first hfirst).2⟩, ih⟩

/-! The nodes of a text. -/

def Node.text? : Node → Option (Text × Span)
  | .text content span => some (content, span)
  | _ => none

def Node.interpolation? : Node → Option (Expression × Excerpt)
  | .interpolation value loc => some (value, loc)
  | _ => none

/-- The node is a plain text or an interpolation. -/
def Node.isTextual (node : Node) : Bool := node.text?.isSome || node.interpolation?.isSome

theorem interpolation?_textNodes (e : Excerpt) :
    (textNodes e).filterMap Node.interpolation? =
      (inners e).map fun inner => (.ofExcerpt inner.trim, enclose inner) := by
  rw [textNodes, inners, List.filterMap_filterMap, List.map_filterMap]
  congr 1
  funext s
  cases s with
  | plain text =>
    simp only [Segment.node?]
    split <;> rfl
  | interpolation inner => rfl

/-- The plain texts that are not blank have nodes. -/
theorem text?_textNodes (e : Excerpt) :
    (textNodes e).filterMap Node.text? =
      ((plainTexts e).filter (!·.text.allBlank)).map fun text =>
        (Entity.normalize text.text, text.span) := by
  rw [textNodes, plainTexts, List.filterMap_filterMap, List.filter_filterMap, List.map_filterMap]
  congr 1
  funext s
  cases s with
  | plain text =>
    simp only [Segment.node?, Segment.plain?, Text.trim_isEmpty]
    cases h : text.text.allBlank <;> simp [h, Option.filter, Node.text?]
  | interpolation inner => rfl

theorem isTextual_textNodes (e : Excerpt) : ∀ node ∈ textNodes e, node.isTextual := by
  intro node hnode
  rcases mem_textNodes hnode with ⟨text, -, rfl⟩ | ⟨inner, -, rfl⟩ <;> rfl

/-- Only the first gap depends on where the gaps start. -/
theorem gaps_eq_cons (start mid stop : Nat) (spans : List Span) :
    Span.gaps start stop spans =
      .between start ((spans.head?.map Span.start).getD stop) ::
        (Span.gaps mid stop spans).tail := by
  cases spans <;> rfl

theorem filter_gaps_self (offset : Nat) (spans : List Span) :
    (Span.between offset offset :: spans).filter (0 < ·.length) = spans.filter (0 < ·.length) := by
  have hempty : (Span.between offset offset).length = 0 := Nat.sub_self offset
  simp [hempty]

/-- A plain text in front of other spans leaves itself free if it is blank, and nothing if not. -/
theorem filter_gaps_plain (text : Excerpt) (stop : Nat) (spans : List Span)
    (hnext : (spans.head?.map Span.start).getD stop = text.stop) :
    (Span.gaps text.start stop ((Segment.plain text).node?.toList.map Node.span ++ spans)).filter
        (0 < ·.length) =
      ((if text.text.allBlank then [text.span] else []) ++ Span.gaps text.stop stop spans).filter
        (0 < ·.length) := by
  rw [Segment.node?, Text.trim_isEmpty]
  cases text.text.allBlank with
  | false => exact filter_gaps_self text.start (Span.gaps text.stop stop spans)
  | true =>
    have hstart := gaps_eq_cons text.start text.stop stop spans
    have hstop := gaps_eq_cons text.stop text.stop stop spans
    rw [hnext] at hstart hstop
    rw [between_eq_span] at hstart
    show (Span.gaps text.start stop spans).filter _ =
      ([text.span] ++ Span.gaps text.stop stop spans).filter _
    rw [hstart, List.filter_append, hstop, filter_gaps_self, ← List.filter_append]
    rfl

theorem map_span_filter_blank_cons (text : Excerpt) (texts : List Excerpt) :
    ((text :: texts).filter (·.text.allBlank)).map Excerpt.span =
      (if text.text.allBlank then [text.span] else []) ++
        (texts.filter (·.text.allBlank)).map Excerpt.span := by
  cases h : text.text.allBlank <;> simp [h]

/-- What the nodes of a text leave free is its blank plain texts. -/
theorem gaps_textNodes (e : Excerpt) :
    (Span.gaps e.start e.stop ((textNodes e).map Node.span)).filter (0 < ·.length) =
      (((plainTexts e).filter (·.text.allBlank)).map Excerpt.span).filter (0 < ·.length) := by
  simp only [textNodes, plainTexts]
  fun_induction segments e with
  | case1 e hnone =>
    have hsegment : [Segment.plain e].filterMap Segment.plain? = [e] := rfl
    have hplain := filter_gaps_plain e e.stop [] rfl
    rw [List.append_nil, Span.gaps, List.filter_append, filter_gaps_self, List.filter_nil,
      List.append_nil] at hplain
    rw [filterMap_node?_cons, List.filterMap_nil, List.append_nil, hplain, hsegment,
      map_span_filter_blank_cons, List.filter_nil, List.map_nil, List.append_nil]
  | case2 e before inner after hfirst _ innerStart ih =>
    have hstop : (Excerpt.mk (innerStart + inner.byteLength + 2) after).stop = e.stop :=
      firstInterpolation?_stop hfirst
    rw [hstop] at ih
    have hnext : (enclose ⟨innerStart, inner⟩).span.stop = innerStart + inner.byteLength + 2 :=
      Segment.stop_interpolation _ inner
    have hplain := filter_gaps_plain ⟨e.start, before⟩ e.stop
      ((enclose ⟨innerStart, inner⟩).span ::
        ((segments ⟨innerStart + inner.byteLength + 2, after⟩).filterMap Segment.node?).map
          Node.span) rfl
    -- the interpolation starts where the plain text stops, so nothing is free between them
    have hself : (Excerpt.mk e.start before).stop = (enclose ⟨innerStart, inner⟩).span.start := rfl
    rw [Span.gaps, hnext, hself, List.filter_append, filter_gaps_self, ih,
      ← List.filter_append, ← map_span_filter_blank_cons] at hplain
    have hnode : (Segment.interpolation ⟨innerStart, inner⟩).node?.toList.map Node.span =
        [(enclose ⟨innerStart, inner⟩).span] := rfl
    rw [filterMap_node?_cons, filterMap_node?_cons, List.map_append, List.map_append, hnode]
    exact hplain

/-! The texts and interpolations of a template. -/

/-- The texts and interpolations of a template in order. -/
def textualOf (nodes : List Node) : List Node := (preorderOf nodes).filter Node.isTextual

@[simp]
theorem textualOf_append (nodes nodes' : List Node) :
    textualOf (nodes ++ nodes') = textualOf nodes ++ textualOf nodes' := by
  rw [textualOf, preorderOf_append, List.filter_append]
  rfl

theorem textualOf_eq_self {nodes : List Node} (h : ∀ node ∈ nodes, node.isTextual) :
    textualOf nodes = nodes := by
  induction nodes with
  | nil => rfl
  | cons node nodes ih =>
    obtain ⟨hnode, hnodes⟩ := List.forall_mem_cons.1 h
    have hrest := ih hnodes
    cases node with
    | text content span => exact congrArg (_ :: ·) hrest
    | interpolation value loc => exact congrArg (_ :: ·) hrest
    | _ => cases hnode

theorem textualOf_eq_collect (nodes : List Node) :
    textualOf nodes = collect (Option.guard Node.isTextual) nodes := by
  rw [collect, List.filterMap_eq_filter]
  rfl

/-- Gathering branches into conditionals keeps the texts and interpolations. -/
theorem textualOf_gather (source : Text) (pieces : List Piece) :
    textualOf (gather source pieces) = textualOf (pieces.map Piece.alone) := by
  rw [textualOf_eq_collect, textualOf_eq_collect]
  exact collect_gather (fun _ _ => rfl) (fun _ _ => rfl) source pieces

theorem textualOf_elementPiece (source : Text) (tag : Markup.OpenTag) (span : Span)
    (endName : Option Span) (children : List Node) :
    textualOf ((elementPiece source tag span endName children).map Piece.alone) =
      textualOf children := by
  have hnone : (loopClause? tag.attributes).bind (fun _ => (none : Option Node)) = none := by
    cases loopClause? tag.attributes <;> rfl
  rw [textualOf_eq_collect, textualOf_eq_collect, collect_elementPiece (fun _ _ => rfl)
    (fun _ _ => rfl) (fun _ _ _ => rfl), hnone, Option.toList_none, List.nil_append]

end Template

namespace Markup

def Node.text? : Node → Option (Text × Span)
  | .text t span => some (t, span)
  | _ => none

/-- The texts of a markup tree in order, with their spans. -/
def textsOf (nodes : List Node) : List (Text × Span) := (preorderOf nodes).filterMap Node.text?

end Markup

namespace Template

/-- The nodes of a text of the markup. -/
def nodesOfText (text : Text × Span) : List Node := textNodes ⟨text.2.start, text.1⟩

mutual

theorem textualOf_piecesOf (source : Text) : ∀ node : Markup.Node,
    textualOf ((piecesOf source node).map Piece.alone) =
      (node.preorder.filterMap Markup.Node.text?).flatMap nodesOfText
  | .element tag children span endName => by
    rw [piecesOf, textualOf_elementPiece, textualOf_gather, textualOf_piecesOfAll source children]
    rfl
  | .text text span => by
    rw [piecesOf, map_alone_node, textualOf_eq_self (isTextual_textNodes _)]
    exact (List.append_nil _).symm
  | .comment _ _ => by
    rw [piecesOf]
    rfl
  | .declaration _ _ => by
    rw [piecesOf]
    rfl

theorem textualOf_piecesOfAll (source : Text) : ∀ nodes : List Markup.Node,
    textualOf ((piecesOfAll source nodes).map Piece.alone) =
      (Markup.textsOf nodes).flatMap nodesOfText
  | [] => by
    rw [piecesOfAll]
    rfl
  | node :: nodes => by
    rw [piecesOfAll, List.map_append, textualOf_append, textualOf_piecesOf source node,
      textualOf_piecesOfAll source nodes, Markup.textsOf, Markup.textsOf, Markup.preorderOf,
      List.filterMap_append, List.flatMap_append]

end

/-- The texts and interpolations of a template are those of the texts of its markup in order. -/
theorem textualOf_parse (source : Text) :
    textualOf (parse source) = (Markup.textsOf (Markup.parse source)).flatMap nodesOfText := by
  rw [parse, ofMarkup, textualOf_gather, textualOf_piecesOfAll]

/-- The plain runs of a text: what its interpolations leave free. -/
def plainRuns (span : Span) (nodes : List Node) : List Span :=
  Span.gaps span.start span.stop ((nodes.filterMap Node.interpolation?).map (·.2.span))

/-- An interpolation as it stands in the source. What follows the opening braces has closing ones at
its end only, and the value is the inside without the blanks around it. -/
structure Delimited (source : Text) (value : Expression) (loc : Excerpt) (inner : Text) : Prop where
  stands : source.slice? loc.span = some loc.text
  text : loc.text = openBraces ++ inner ++ closeBraces
  first : ∀ a b, inner ++ closeBraces = a ++ closeBraces ++ b → b = []
  value : ∃ lead mid tail, inner = lead ++ mid ++ tail ∧ lead.allBlank ∧ tail.allBlank ∧
    mid.Trimmed ∧ (mid = [] → tail = []) ∧
      value = .ofText mid ⟨loc.start + 2 + lead.byteLength, mid.byteLength⟩

/-- The nodes are what a text of the markup is divided into. -/
structure DividesText (source : Text) (span : Span) (nodes : List Node) : Prop where
  textual : ∀ node ∈ nodes, node.isTextual
  inOrder : Span.InOrder span.start (nodes.map Node.span) span.stop
  interpolations : ∀ interpolation ∈ nodes.filterMap Node.interpolation?,
    ∃ inner, Delimited source interpolation.1 interpolation.2 inner
  runs : ∀ run ∈ plainRuns span nodes, (source.slice? run).isSome
  /-- A plain run is a node, unless it is blank. -/
  texts : nodes.filterMap Node.text? =
    ((plainRuns span nodes).filter fun run => !(source.slice run).allBlank).map fun run =>
      (Entity.normalize (source.slice run), run)
  /-- The bytes in no node are those of the blank runs. -/
  uncovered : (Span.gaps span.start span.stop (nodes.map Node.span)).filter (0 < ·.length) =
    ((plainRuns span nodes).filter fun run => (source.slice run).allBlank).filter (0 < ·.length)
  unopened : ∀ run ∈ (plainRuns span nodes).dropLast, ¬ openBraces <:+: source.slice run
  unclosed : ∀ run ∈ (plainRuns span nodes).getLast?, ∀ a b c,
    source.slice run ≠ a ++ openBraces ++ b ++ closeBraces ++ c

theorem plainRuns_textNodes (e : Excerpt) :
    plainRuns e.span (textNodes e) = (plainTexts e).map Excerpt.span := by
  rw [plainRuns, interpolation?_textNodes, List.map_map]
  exact gaps_inners e

theorem slice_plainText (h : e.In source) :
    ∀ text ∈ plainTexts e, source.slice? text.span = some text.text := by
  intro text htext
  obtain ⟨s, hs, hplain⟩ := List.mem_filterMap.1 htext
  cases s with
  | plain text' =>
    cases hplain
    exact Excerpt.in_iff_slice?.1 (segments_in h _ hs).1
  | interpolation inner => cases hplain

/-- A text is its trimmed part with blanks around it; a blank text ends with its trimmed part. -/
theorem exists_trim (e : Excerpt) :
    ∃ lead mid tail, e.text = lead ++ mid ++ tail ∧ lead.allBlank ∧ tail.allBlank ∧
      mid.Trimmed ∧ (mid = [] → tail = []) ∧ e.trim = ⟨e.start + lead.byteLength, mid⟩ := by
  have hlead : (e.text.takeWhile isBlank).all isBlank :=
    List.all_eq_true.2 fun c hc => List.mem_takeWhile_imp hc
  have htail : ((e.text.trimStart.reverse.takeWhile isBlank).reverse).all isBlank :=
    List.all_eq_true.2 fun c hc => List.mem_takeWhile_imp (List.mem_reverse.1 hc)
  have hsplit := Text.dropTrailing_append isBlank e.text.trimStart
  refine ⟨e.text.takeWhile isBlank, e.text.trim, _, ?_, hlead, htail, Text.trimmed_trim _, ?_, rfl⟩
  · rw [List.append_assoc, Text.trim, Text.trimEnd, hsplit]
    exact List.takeWhile_append_dropWhile.symm
  · intro hnil
    have htrimEnd : e.text.trimStart.dropTrailing isBlank = [] := hnil
    rw [htrimEnd, List.nil_append] at hsplit
    rw [hsplit] at htail ⊢
    cases hstart : e.text.trimStart with
    | nil => rfl
    | cons c rest =>
      have hc := Text.not_isBlank_head_trimStart e.text c (by rw [hstart]; rfl)
      rw [hstart] at htail
      exact absurd (List.all_eq_true.1 htail c List.mem_cons_self) hc

theorem delimited_inner (h : e.In source) {inner : Excerpt} (hinner : inner ∈ inners e) :
    Delimited source (.ofExcerpt inner.trim) (enclose inner) inner.text := by
  obtain ⟨s, hs, hsome⟩ := List.mem_filterMap.1 hinner
  obtain ⟨hstart, hfirst⟩ := inners_braces e inner hinner
  cases s with
  | plain text => cases hsome
  | interpolation inner' =>
    cases hsome
    refine ⟨Excerpt.in_iff_slice?.1 (segments_in h _ hs).2, rfl, hfirst, ?_⟩
    obtain ⟨lead, mid, tail, htext, hlead, htail, htrimmed, hblank, htrim⟩ := exists_trim inner
    refine ⟨lead, mid, tail, htext, hlead, htail, htrimmed, hblank, ?_⟩
    have hopen : (enclose inner).start + 2 = inner.start := Nat.sub_add_cancel hstart
    rw [htrim, hopen]
    rfl

theorem dividesText_textNodes (h : e.In source) : DividesText source e.span (textNodes e) := by
  have hruns := plainRuns_textNodes e
  have hslice : ∀ text ∈ plainTexts e, source.slice text.span = text.text := by
    intro text htext
    rw [Text.slice, slice_plainText h text htext, Option.getD_some]
  have hfilter : ∀ p : Text → Bool,
      (plainTexts e).filter ((fun run => p (source.slice run)) ∘ Excerpt.span) =
        (plainTexts e).filter (p ·.text) := by
    intro p
    refine List.filter_congr fun text htext => ?_
    rw [Function.comp_apply, hslice text htext]
  obtain ⟨init, last, hplain, hinit, hlast⟩ := plainTexts_braces e
  constructor
  case textual => exact isTextual_textNodes e
  case inOrder => exact textNodes_inOrder e
  case interpolations =>
    rw [interpolation?_textNodes]
    intro interpolation hmem
    obtain ⟨inner, hinner, rfl⟩ := List.mem_map.1 hmem
    exact ⟨inner.text, delimited_inner h hinner⟩
  case runs =>
    rw [hruns]
    intro run hrun
    obtain ⟨text, htext, rfl⟩ := List.mem_map.1 hrun
    rw [slice_plainText h text htext]
    rfl
  case texts =>
    rw [text?_textNodes, hruns, List.filter_map, List.map_map, hfilter (!Text.allBlank ·)]
    refine List.map_congr_left fun text htext => ?_
    rw [Function.comp_apply, hslice text (List.mem_filter.1 htext).1]
  case uncovered =>
    rw [hruns, List.filter_map, hfilter Text.allBlank]
    exact gaps_textNodes e
  case unopened =>
    rw [hruns, hplain, List.map_append, List.map_singleton, List.dropLast_concat]
    intro run hrun
    obtain ⟨text, htext, rfl⟩ := List.mem_map.1 hrun
    rw [hslice text (by rw [hplain]; exact List.mem_append_left _ htext)]
    exact hinit text htext
  case unclosed =>
    rw [hruns, hplain, List.map_append, List.map_singleton, List.getLast?_concat]
    rintro run ⟨⟩
    rw [hslice last (by rw [hplain]; exact List.mem_append_right _ List.mem_cons_self)]
    exact hlast

end Template

namespace Markup

variable {source : Text} {node m : Node} {nodes : List Node}

theorem mem_preorderOf : m ∈ preorderOf nodes ↔ ∃ node ∈ nodes, m ∈ node.preorder := by
  induction nodes with
  | nil => simp [preorderOf]
  | cons node nodes ih => simp [preorderOf, ih]

theorem Node.ReadIn.preorder (h : node.ReadIn source) : ∀ m ∈ node.preorder, m.ReadIn source := by
  induction h with
  | element htag hchildren hstop hend ih =>
    intro m hm
    rw [Node.preorder] at hm
    rcases List.mem_cons.1 hm with rfl | hm
    · exact .element htag hchildren hstop hend
    · obtain ⟨child, hchild, hm⟩ := mem_preorderOf.1 hm
      exact ih child hchild m hm
  | text he =>
    rw [Node.preorder]
    exact List.forall_mem_singleton.2 (.text he)
  | comment he =>
    rw [Node.preorder]
    exact List.forall_mem_singleton.2 (.comment he)
  | declaration he =>
    rw [Node.preorder]
    exact List.forall_mem_singleton.2 (.declaration he)

/-- The texts of a markup tree stand in the source. -/
theorem textsOf_parse (source : Text) : ∀ text ∈ textsOf (parse source),
    text.2.length = text.1.byteLength ∧ (Excerpt.mk text.2.start text.1).In source := by
  intro text htext
  obtain ⟨m, hm, hsome⟩ := List.mem_filterMap.1 htext
  obtain ⟨node, hnode, hm⟩ := mem_preorderOf.1 hm
  cases (parse_readIn source node hnode).preorder m hm with
  | text he =>
    cases hsome
    exact ⟨rfl, he⟩
  | _ => cases hsome

end Markup

namespace Template

/-- Every text of the markup is divided into texts and interpolations, and the template has no
others. They follow one another inside the text, and the bytes that they leave out are its blank
plain runs. An interpolation reaches to the first closing braces, with its value trimmed; no plain
run before one has opening braces, and the last run has none that are closed. -/
theorem parse_divides_texts (source : Text) :
    ∃ division : List (Span × List Node),
      division.map Prod.fst = (Markup.textsOf (Markup.parse source)).map Prod.snd ∧
      textualOf (parse source) = division.flatMap Prod.snd ∧
      ∀ text ∈ division, DividesText source text.1 text.2 := by
  refine ⟨(Markup.textsOf (Markup.parse source)).map fun text => (text.2, nodesOfText text),
    ?_, ?_, ?_⟩
  · rw [List.map_map]
    rfl
  · rw [textualOf_parse, List.flatMap_map]
  · intro divided hmem
    obtain ⟨text, htext, rfl⟩ := List.mem_map.1 hmem
    obtain ⟨hlength, hin⟩ := Markup.textsOf_parse source text htext
    have hspan : text.2 = (Excerpt.mk text.2.start text.1).span := by
      rw [Excerpt.span, ← hlength]
    have hdivides := dividesText_textNodes hin
    rw [← hspan] at hdivides
    exact hdivides

/-- A third opening brace belongs to the inside, and braces that nothing closes are plain. -/
example :
    (textualOf (parse "<p> \x7b\x7b\x7b a \x7d\x7d \x7b\x7b</p>".toList)).map Node.span =
      [⟨4, 8⟩, ⟨12, 3⟩] := by
  decide +kernel

end Template

end TemplateProjection
