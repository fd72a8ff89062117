import TemplateProjection.Proofs.AttributeOrder
import TemplateProjection.Template.Directive

/-! Places in a source: spans whose ends can be cut, the parts located there, and the opening tags
among the tokens of the source. -/
namespace TemplateProjection

namespace Text

variable {t u v w : Text} {s s' : Span}

theorem eq_nil_of_byteLength (h : byteLength t = 0) : t = [] := by
  cases t with
  | nil => rfl
  | cons c t =>
    have hpos := c.utf8Size_pos
    simp only [byteLength_cons] at h
    omega

/-- Of two starts of one text, the one with fewer bytes is a start of the other. -/
theorem isPrefix_of_byteLength_le (hu : u <+: w) (hv : v <+: w)
    (h : byteLength u ≤ byteLength v) : u <+: v := by
  rcases List.prefix_or_prefix_of_prefix hu hv with huv | hvu
  · exact huv
  · obtain ⟨x, rfl⟩ := hvu
    rw [byteLength_append] at h
    have hx : x = [] := eq_nil_of_byteLength (by omega)
    exact ⟨[], by rw [hx, List.append_nil, List.append_nil]⟩

/-- Of two slices that start together, the shorter is a start of the other. -/
theorem isPrefix_of_slice? (h : t.slice? s = some u) (h' : t.slice? s' = some v)
    (hstart : s.start = s'.start) (hle : s.length ≤ s'.length) : u <+: v := by
  obtain ⟨before, after, ht, hbefore, hlen⟩ := slice?_eq_some_iff.1 h
  obtain ⟨before', after', ht', hbefore', hlen'⟩ := slice?_eq_some_iff.1 h'
  have hcut := cut?_byteLength before (u ++ after)
  have hcut' := cut?_byteLength before' (v ++ after')
  rw [hbefore, ← List.append_assoc, ← ht, hstart] at hcut
  rw [hbefore', ← List.append_assoc, ← ht'] at hcut'
  have hrest : u ++ after = v ++ after' := by
    rw [hcut] at hcut'
    exact (Prod.mk.inj (Option.some.inj hcut')).2
  exact isPrefix_of_byteLength_le ⟨after, rfl⟩ ⟨after', hrest.symm⟩ (by omega)

/-- A span whose ends can be cut has a slice. -/
theorem slice?_of_ends (hstart : (Excerpt.mk s.start []).In t)
    (hstop : (Excerpt.mk s.stop []).In t) : ∃ u, t.slice? s = some u := by
  obtain ⟨before, after, ht, hbefore⟩ := hstart
  obtain ⟨upTo, behind, ht', hupTo⟩ := hstop
  simp only [List.append_nil] at ht ht'
  obtain ⟨u, rfl⟩ : before <+: upTo := by
    refine isPrefix_of_byteLength_le ⟨after, ht.symm⟩ ⟨behind, ht'.symm⟩ ?_
    rw [hbefore, hupTo]
    exact s.start_le_stop
  refine ⟨u, slice?_eq_some_iff.2 ⟨before, behind, ht', hbefore, ?_⟩⟩
  rw [byteLength_append, hbefore] at hupTo
  exact Nat.add_left_cancel hupTo

end Text

namespace Markup

variable {source : Text} {tag : OpenTag}

theorem OpenTag.StandsIn.readIn (h : tag.StandsIn source) : tag.ReadIn source := by
  obtain ⟨token, htoken, hkind, rfl⟩ := h
  exact ⟨token.toExcerpt, Token.lex_in source token htoken,
    (Token.lexFrom_startsAsKind token htoken).1 hkind, rfl⟩

theorem OpenTag.StandsIn.encloses (h : tag.StandsIn source) : ∀ a ∈ tag.attributes, a.Encloses := by
  obtain ⟨token, -, -, rfl⟩ := h
  exact OpenTag.ofExcerpt_encloses token.toExcerpt

theorem OpenTag.StandsIn.start_in (h : tag.StandsIn source) :
    (Excerpt.mk tag.span.start []).In source := by
  obtain ⟨token, htoken, -, rfl⟩ := h
  exact (Token.lex_in source token htoken).atStart

theorem OpenTag.StandsIn.filled (h : tag.StandsIn source) : tag.span.start < tag.span.stop := by
  obtain ⟨token, htoken, -, rfl⟩ := h
  exact Token.start_lt_stop (Token.text_ne_nil token htoken)

/-- Between the name and the end of an opening tag the attributes stand one behind another. -/
theorem OpenTag.StandsIn.inOrder (h : tag.StandsIn source) :
    Span.InOrder (tag.span.start + 1 + tag.name.byteLength) (tag.attributes.map (·.span))
      tag.span.stop := by
  obtain ⟨token, htoken, hkind, rfl⟩ := h
  obtain ⟨_, _, htext, -⟩ := (Token.lexFrom_startsAsKind token htoken).1 hkind
  exact OpenTag.ofExcerpt_inOrder htext

/-- Every element of the node has an opening tag of the text, and every comment and declaration is a
token of it. -/
inductive Node.TagsStandIn (source : Text) : Node → Prop
  | element {tag : OpenTag} {children : List Node} {span : Span} {endName : Option Span}
      (htag : tag.StandsIn source) (h : ∀ node ∈ children, node.TagsStandIn source) :
      TagsStandIn source (.element tag children span endName)
  | text {t : Text} {span : Span} : TagsStandIn source (.text t span)
  | comment {token : Token} (htoken : token ∈ Token.lex source) :
      TagsStandIn source (.comment (commentData token.text) token.span)
  | declaration {token : Token} (htoken : token ∈ Token.lex source) :
      TagsStandIn source (.declaration token.text token.span)

theorem tagsStandIn_parse (source : Text) : ∀ node ∈ parse source, node.TagsStandIn source :=
  parse_forall (fun _ _ => .text) (fun _ htoken _ => .comment htoken)
    (fun _ htoken _ => .declaration htoken) fun _ _ _ _ htag h => .element htag h

theorem Node.TagsStandIn.comment_filled {data : Text} {span : Span}
    (h : (Node.comment data span).TagsStandIn source) : span.start < span.stop := by
  cases h with
  | comment htoken => exact Token.start_lt_stop (Token.text_ne_nil _ htoken)

end Markup

namespace Template

variable {source : Text} {e : Excerpt} {span : Span}

theorem locate_of_slice? {t : Text} (h : source.slice? span = some t) :
    locate source span = ⟨span.start, t⟩ := by
  rw [locate, Text.slice, h]
  rfl

theorem span_locate {t : Text} (h : source.slice? span = some t) :
    (locate source span).span = span := by
  obtain ⟨_, _, _, _, hlen⟩ := Text.slice?_eq_some_iff.1 h
  rw [locate_of_slice? h, Excerpt.span, hlen]

/-- What is located stands in the source at the span. -/
theorem locate_in (hstart : (Excerpt.mk span.start []).In source)
    (hstop : (Excerpt.mk span.stop []).In source) :
    (locate source span).In source ∧ (locate source span).span = span := by
  obtain ⟨t, ht⟩ := Text.slice?_of_ends hstart hstop
  refine ⟨Excerpt.in_iff_slice?.2 ?_, span_locate ht⟩
  rw [span_locate ht, locate_of_slice? ht, ht]

/-- What lies between two places of the source, or nothing if the second comes first. -/
theorem locate_between_in {start stop : Nat} (hstart : (Excerpt.mk start []).In source)
    (hstop : (Excerpt.mk stop []).In source) :
    (locate source (.between start stop)).In source := by
  refine (locate_in hstart ?_).1
  rcases Nat.le_total start stop with hle | hle
  · rwa [Span.stop_between hle]
  · have hend : (Span.between start stop).stop = start := by
      simp only [Span.between, Span.stop]
      omega
    rwa [hend]

/-- The least part of the source around two others. -/
theorem locate_cover_in {f : Excerpt} (he : e.In source) (hf : f.In source) :
    (locate source (e.span.cover f.span)).In source := by
  refine locate_between_in ?_ ?_
  · rcases Nat.le_total e.start f.start with hle | hle
    · rw [Excerpt.span, Excerpt.span, Nat.min_eq_left hle]
      exact he.atStart
    · rw [Excerpt.span, Excerpt.span, Nat.min_eq_right hle]
      exact hf.atStart
  · rcases Nat.le_total e.stop f.stop with hle | hle
    · exact (Nat.max_eq_right hle).symm ▸ hf.atStop
    · exact (Nat.max_eq_left hle).symm ▸ he.atStop

end Template

end TemplateProjection
