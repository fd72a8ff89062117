import Mathlib.Data.List.Forall2
import TemplateProjection.Proofs.Placement
import TemplateProjection.Proofs.RespacedTags
import TemplateProjection.Proofs.Writing

/-!
Markup that differs in its blanks only has the same tree: reading two such texts token by token
keeps the trees the same, apart from the blanks in texts, comments, declarations and values.
-/
namespace TemplateProjection

open Text

namespace Markup

variable {t t' run run' : Text} {nodes nodes' closed closed' : List Node} {offset offset' : Nat}

mutual

/-- The node without its spans, every run of blanks in it collapsed. Blank text is left out. -/
def Node.condense? : Node → Option Node
  | .element tag children _ endName =>
    some (.element tag.condense (condenseAll children) (.empty 0) (endName.map fun _ => .empty 0))
  | .text t _ => if t.words.isEmpty then none else some (.text t.collapse (.empty 0))
  | .comment data _ => some (.comment data.collapse (.empty 0))
  | .declaration t _ => some (.declaration t.collapse (.empty 0))

def condenseAll : List Node → List Node
  | [] => []
  | node :: nodes => node.condense?.toList ++ condenseAll nodes

end

@[simp]
theorem condenseAll_append (nodes nodes' : List Node) :
    condenseAll (nodes ++ nodes') = condenseAll nodes ++ condenseAll nodes' := by
  induction nodes with
  | nil => rfl
  | cons node nodes ih => simp [condenseAll, ih]

theorem condenseAll_singleton (node : Node) : condenseAll [node] = node.condense?.toList :=
  List.append_nil _

/-- Of a text only the words count. -/
theorem Node.condense?_text_congr (span span' : Span) (h : t.words = t'.words) :
    (Node.text t span).condense? = (Node.text t' span').condense? := by
  simp only [Node.condense?, Text.collapse, h]

theorem OpenTag.name_of_condense_eq {tag tag' : OpenTag} (h : tag.condense = tag'.condense) :
    tag.name = tag'.name :=
  show tag.condense.name = tag'.condense.name by rw [h]

theorem OpenTag.selfClosing_of_condense_eq {tag tag' : OpenTag}
    (h : tag.condense = tag'.condense) : tag.selfClosing = tag'.selfClosing :=
  show tag.condense.selfClosing = tag'.condense.selfClosing by rw [h]

/-- Siblings read up to an offset: those that are finished, and the text that goes on there. -/
inductive ReadTo (offset : Nat) : List Node → List Node → Text → Prop
  | finished {nodes : List Node}
      (h : ∀ t span, nodes.getLast? = some (.text t span) → span.stop < offset) :
      ReadTo offset nodes nodes []
  | running {nodes : List Node} (run : Text) {span : Span} (h : span.stop = offset) :
      ReadTo offset (nodes ++ [.text run span]) nodes run

namespace ReadTo

/-- Text that comes next joins the text that goes on. -/
theorem appendText {e : Excerpt} (h : ReadTo e.start nodes closed run) :
    ReadTo e.stop (Markup.appendText nodes e) closed (run ++ e.text) := by
  cases h with
  | finished h =>
    have happend : Markup.appendText nodes e = nodes ++ [.text e.text e.span] := by
      simp only [Markup.appendText]
      split
      · next before span hlast =>
        have hstop := h before span hlast
        rw [if_neg (by omega)]
      · rfl
    rw [happend]
    exact .running e.text rfl
  | @running _ _ span h =>
    have happend : Markup.appendText (closed ++ [.text run span]) e =
        closed ++ [.text (run ++ e.text) (span.cover e.span)] := by
      simp [Markup.appendText, h]
    rw [happend]
    refine .running _ ?_
    simp only [Span.cover, Span.between, Span.stop, Excerpt.span, Excerpt.stop] at h ⊢
    omega

/-- Behind something that is no text, nothing goes on. -/
theorem later (h : ReadTo offset nodes closed run) (hlt : offset < offset') :
    ReadTo offset' nodes nodes [] := by
  cases h with
  | finished h => exact .finished fun t span hlast => Nat.lt_trans (h t span hlast) hlt
  | running _ h =>
    refine .finished fun t span hlast => ?_
    rw [List.getLast?_concat] at hlast
    cases hlast
    omega

theorem condenseAll_eq (h : ReadTo offset nodes closed run) (span : Span) :
    condenseAll nodes = condenseAll closed ++ (Node.text run span).condense?.toList := by
  cases h with
  | finished h => simp [Node.condense?, words_nil]
  | running _ h =>
    rw [condenseAll_append, condenseAll_singleton, Node.condense?_text_congr _ span rfl]

end ReadTo

/-- Siblings read up to two offsets, which are the same apart from blanks. -/
def SiblingsMatch (offset offset' : Nat) (nodes nodes' : List Node) : Prop :=
  ∃ closed closed' run run', ReadTo offset nodes closed run ∧ ReadTo offset' nodes' closed' run' ∧
    condenseAll closed = condenseAll closed' ∧ Respaced run.trimStart run'.trimStart

namespace SiblingsMatch

theorem condenseAll_eq (h : SiblingsMatch offset offset' nodes nodes') :
    condenseAll nodes = condenseAll nodes' := by
  obtain ⟨closed, closed', run, run', hread, hread', hclosed, hrun⟩ := h
  have hwords : run.words = run'.words := by
    rw [← words_trimStart run, ← words_trimStart run', hrun.words_eq]
  rw [hread.condenseAll_eq (.empty 0), hread'.condenseAll_eq (.empty 0), hclosed,
    Node.condense?_text_congr _ (.empty 0) hwords]

theorem appendText {e e' : Excerpt} (h : SiblingsMatch e.start e'.start nodes nodes')
    (he : Respaced e.text e'.text) :
    SiblingsMatch e.stop e'.stop (Markup.appendText nodes e) (Markup.appendText nodes' e') := by
  obtain ⟨closed, closed', run, run', hread, hread', hclosed, hrun⟩ := h
  exact ⟨closed, closed', _, _, hread.appendText, hread'.appendText, hclosed,
    hrun.trimStart_append he⟩

theorem later {stop stop' : Nat} (h : SiblingsMatch offset offset' nodes nodes')
    (hlt : offset < stop) (hlt' : offset' < stop') : SiblingsMatch stop stop' nodes nodes' := by
  have hcondense := h.condenseAll_eq
  obtain ⟨closed, closed', run, run', hread, hread', -⟩ := h
  exact ⟨nodes, nodes', [], [], hread.later hlt, hread'.later hlt', hcondense, .nil⟩

theorem of_last (h : condenseAll nodes = condenseAll nodes')
    (hlast : ∀ node ∈ nodes.getLast?, node.isText = false)
    (hlast' : ∀ node ∈ nodes'.getLast?, node.isText = false) (offset offset' : Nat) :
    SiblingsMatch offset offset' nodes nodes' := by
  refine ⟨nodes, nodes', [], [], .finished ?_, .finished ?_, h, .nil⟩
  · exact fun t span hnode => absurd (hlast _ hnode) (by simp [Node.isText])
  · exact fun t span hnode => absurd (hlast' _ hnode) (by simp [Node.isText])

end SiblingsMatch

/-- Open elements that are the same apart from blanks. -/
structure OpenElement.Matches (e e' : OpenElement) : Prop where
  tag : e.tag.condense = e'.tag.condense
  name : ∀ c ∈ e.tag.name, ¬ isAsciiBlank c
  children : condenseAll e.children = condenseAll e'.children

namespace OpenElement.Matches

variable {e e' : OpenElement}

theorem close (h : e.Matches e') {endName endName' : Option Span}
    (hend : endName.isSome = endName'.isSome) (stop stop' : Nat) :
    (e.close stop endName).condense? = (e'.close stop' endName').condense? := by
  have hspan : (endName.map fun _ => Span.empty 0) = endName'.map fun _ => Span.empty 0 := by
    cases endName <;> cases endName' <;> simp_all
  simp only [OpenElement.close, Node.condense?, h.tag, h.children, hspan]

theorem append {inner inner' : List Node} (h : e.Matches e')
    (hinner : condenseAll inner = condenseAll inner') :
    OpenElement.Matches ⟨e.tag, e.children ++ inner⟩ ⟨e'.tag, e'.children ++ inner'⟩ where
  tag := h.tag
  name := h.name
  children := by rw [condenseAll_append, condenseAll_append, h.children, hinner]

/-- Element names have no blanks, so only a name without blanks closes an element. -/
theorem eqIgnoringCase {name name' : Text} (h : e.Matches e') (hname : Respaced name name') :
    e.tag.name.eqIgnoringCase name = e'.tag.name.eqIgnoringCase name' := by
  have htag : e.tag.name = e'.tag.name := OpenTag.name_of_condense_eq h.tag
  have heq : ∀ {n n' : Text}, Respaced n n' → e.tag.name.eqIgnoringCase n → n' = n := by
    intro n n' hn hsame
    refine hn.eq_of_solid fun c hc hblank => ?_
    have hlower : c.toLower ∈ e.tag.name.map Char.toLower := by
      rw [beq_iff_eq.1 hsame]
      exact List.mem_map_of_mem hc
    obtain ⟨d, hd, hcd⟩ := List.mem_map.1 hlower
    have hdlower : isAsciiBlank d.toLower := hcd ▸ isAsciiBlank_toLower (hn.ascii c hc hblank)
    exact h.name d hd (isAsciiBlank_of_toLower hdlower)
  rw [← htag]
  cases hsame : e.tag.name.eqIgnoringCase name with
  | true => rw [heq hname hsame, hsame]
  | false =>
    cases hsame' : e.tag.name.eqIgnoringCase name' with
    | false => rfl
    | true =>
      rw [heq hname.symm hsame', hsame'] at hsame
      cases hsame

end OpenElement.Matches

namespace Builder

variable {b b' : Builder} {node node' : Node}

/-- Trees that are the same so far, apart from blanks. -/
structure Matches (b b' : Builder) : Prop where
  roots : condenseAll b.roots = condenseAll b'.roots
  pending : List.Forall₂ OpenElement.Matches b.pending b'.pending

/-- Moreover, the siblings being read have been read up to two offsets. -/
structure MatchesAt (offset offset' : Nat) (b b' : Builder) : Prop extends Matches b b' where
  siblings : SiblingsMatch offset offset' b.siblings b'.siblings

theorem Matches.siblings (h : Matches b b') :
    condenseAll b.siblings = condenseAll b'.siblings := by
  obtain ⟨roots, pending⟩ := b
  obtain ⟨roots', pending'⟩ := b'
  cases h.pending with
  | nil => exact h.roots
  | cons he _ => exact he.children

theorem Matches.modify (h : Matches b b') {f f' : List Node → List Node}
    (hf : condenseAll (f b.siblings) = condenseAll (f' b'.siblings)) :
    Matches (b.modify f) (b'.modify f') := by
  obtain ⟨roots, pending⟩ := b
  obtain ⟨roots', pending'⟩ := b'
  cases h.pending with
  | nil => exact ⟨hf, .nil⟩
  | cons he hpending => exact ⟨h.roots, .cons ⟨he.tag, he.name, hf⟩ hpending⟩

theorem MatchesAt.modify {stop stop' : Nat} (h : Matches b b') {f f' : List Node → List Node}
    (hf : SiblingsMatch stop stop' (f b.siblings) (f' b'.siblings)) :
    MatchesAt stop stop' (b.modify f) (b'.modify f') where
  toMatches := h.modify hf.condenseAll_eq
  siblings := by rwa [siblings_modify, siblings_modify]

/-- A node that is no text ends the text in front of it. -/
theorem Matches.push (h : Matches b b') (hnode : node.condense? = node'.condense?)
    (htext : node.isText = false) (htext' : node'.isText = false) (offset offset' : Nat) :
    MatchesAt offset offset' (b.push node) (b'.push node') := by
  refine MatchesAt.modify h (SiblingsMatch.of_last ?_ ?_ ?_ offset offset')
  · simp only [condenseAll_append, condenseAll_singleton, h.siblings, hnode]
  · simpa using htext
  · simpa using htext'

theorem Matches.openTag {tag tag' : OpenTag} (h : Matches b b')
    (htag : tag.condense = tag'.condense) (hname : ∀ c ∈ tag.name, ¬ isAsciiBlank c)
    (offset offset' : Nat) :
    MatchesAt offset offset' (b.openTag tag) (b'.openTag tag') := by
  simp only [Builder.openTag, OpenTag.selfClosing_of_condense_eq htag,
    OpenTag.name_of_condense_eq htag]
  split
  · exact h.push (by simp [Node.condense?, htag]) rfl rfl offset offset'
  · exact ⟨⟨h.roots, .cons ⟨htag, hname, rfl⟩ h.pending⟩,
      SiblingsMatch.of_last rfl (by simp [Builder.siblings]) (by simp [Builder.siblings]) _ _⟩

theorem closeThrough_matches {name name' : Text} {roots roots' : List Node} {tag tag' : Span}
    {pending pending' : List OpenElement} {inner inner' : Option Node}
    (hname : Respaced name name') (hroots : condenseAll roots = condenseAll roots')
    (h : List.Forall₂ OpenElement.Matches pending pending')
    (hinner : condenseAll inner.toList = condenseAll inner'.toList)
    (hany : pending.any (·.tag.name.eqIgnoringCase name)) (offset offset' : Nat) :
    MatchesAt offset offset' (closeThrough name tag roots inner pending)
      (closeThrough name' tag' roots' inner' pending') := by
  induction h generalizing inner inner' with
  | nil => cases hany
  | @cons e e' pending pending' he hpending ih =>
    have happend := he.append hinner
    have houter : Matches ⟨roots, pending⟩ ⟨roots', pending'⟩ := ⟨hroots, hpending⟩
    simp only [closeThrough, he.eqIgnoringCase hname]
    split
    · refine houter.push (happend.close ?_ _ _) rfl rfl offset offset'
      rfl
    · next hother =>
      refine ih ?_ ?_
      · simp only [Option.toList_some, condenseAll_singleton]
        rw [happend.close rfl]
      · rw [← he.eqIgnoringCase hname] at hother
        simpa [List.any_cons, hother] using hany

theorem Matches.any_eqIgnoringCase {name name' : Text} (h : Matches b b')
    (hname : Respaced name name') :
    b.pending.any (·.tag.name.eqIgnoringCase name) =
      b'.pending.any (·.tag.name.eqIgnoringCase name') := by
  obtain ⟨roots, pending⟩ := b
  obtain ⟨roots', pending'⟩ := b'
  have hpending := h.pending
  simp only at hpending ⊢
  induction hpending with
  | nil => rfl
  | cons he hrest ih =>
    rw [List.any_cons, List.any_cons, he.eqIgnoringCase hname, ih ⟨h.roots, hrest⟩]

/-- An end tag is ignored on both sides, or closes the same element. -/
theorem MatchesAt.close {tag tag' : Excerpt} (h : MatchesAt tag.start tag'.start b b')
    (htag : Respaced tag.text tag'.text) (hlt : tag.start < tag.stop)
    (hlt' : tag'.start < tag'.stop) :
    MatchesAt tag.stop tag'.stop (b.close tag) (b'.close tag') := by
  have hname := endTagName_respaced htag
  have hany := h.any_eqIgnoringCase hname
  simp only [Builder.close]
  split
  · next hopen =>
    rw [if_pos (hany ▸ hopen)]
    exact closeThrough_matches hname h.roots h.pending rfl hopen _ _
  · next hopen =>
    rw [if_neg (hany ▸ hopen)]
    exact ⟨h.toMatches, h.siblings.later hlt hlt'⟩

/-- One token read on both sides. -/
theorem MatchesAt.step {token token' : Token} (h : MatchesAt token.start token'.start b b')
    (hkind : token.kind = token'.kind) (htext : Respaced token.text token'.text)
    (hlt : token.start < token.stop) (hlt' : token'.start < token'.stop)
    (hopen : token.kind = .openTag → ∀ c ∈ token.text.head?, ¬ isBlank c) :
    MatchesAt token.stop token'.stop (b.step token) (b'.step token') := by
  obtain ⟨e, kind⟩ := token
  obtain ⟨e', kind'⟩ := token'
  cases hkind
  cases kind with
  | text => exact .modify h.toMatches (h.siblings.appendText htext)
  | strayLt => exact .modify h.toMatches (h.siblings.appendText htext)
  | comment =>
    refine h.push ?_ rfl rfl _ _
    simp only [Node.condense?, (commentData_respaced htext).collapse_eq]
  | declaration =>
    refine h.push ?_ rfl rfl _ _
    simp only [Node.condense?, htext.collapse_eq]
  | openTag =>
    refine h.openTag (OpenTag.ofExcerpt_condense htext (hopen rfl)) (fun c hc => ?_) _ _
    exact not_isAsciiBlank_of_mem_tagName hc
  | endTag => exact h.close htext hlt hlt'

/-- All tokens read on both sides. -/
theorem MatchesAt.read (h : MatchesAt offset offset' b b') (ht : Respaced t t') :
    Matches (b.read offset t) (b'.read offset' t') := by
  induction hn : t.length using Nat.strong_induction_on generalizing b b' offset offset' t t' with
  | _ n ih =>
    cases t with
    | nil =>
      rw [ht.eq_nil, read_nil, read_nil]
      exact h.toMatches
    | cons c t =>
      have hne : t' ≠ [] := by
        rintro rfl
        cases ht.symm.eq_nil
      obtain ⟨c', t', rfl⟩ := List.exists_cons_of_ne_nil hne
      have hfirst := Lexeme.first_respaced ht
      have hlength := Lexeme.first_rest_length_lt c t
      have hopen : (Lexeme.first c t).kind = .openTag →
          ∀ d ∈ (Lexeme.first c t).text.head?, ¬ isBlank d := by
        intro hkind d hd
        obtain ⟨_, _, htext, -⟩ := (Lexeme.first_startsAsKind c t).1 hkind
        rw [htext, List.head?_cons, Option.mem_some_iff] at hd
        exact hd ▸ by decide
      rw [read_cons b offset rfl, read_cons b' offset' rfl]
      refine ih _ (hn ▸ hlength) ?_ hfirst.rest rfl
      exact @MatchesAt.step b b' ⟨⟨offset, _⟩, _⟩ ⟨⟨offset', _⟩, _⟩ h hfirst.kind hfirst.text
        (Token.start_lt_stop (Lexeme.first_text_ne_nil c t))
        (Token.start_lt_stop (Lexeme.first_text_ne_nil c' t')) hopen

/-- What is open at the end is closed on both sides. -/
theorem condenseAll_finishAt {roots roots' : List Node} {pending pending' : List OpenElement}
    {inner inner' : Option Node} (hroots : condenseAll roots = condenseAll roots')
    (h : List.Forall₂ OpenElement.Matches pending pending')
    (hinner : condenseAll inner.toList = condenseAll inner'.toList) (stop stop' : Nat) :
    condenseAll (finishAt stop roots inner pending) =
      condenseAll (finishAt stop' roots' inner' pending') := by
  induction h generalizing inner inner' with
  | nil => rw [finishAt, finishAt, condenseAll_append, condenseAll_append, hroots, hinner]
  | cons he _ ih =>
    refine ih ?_
    simp only [Option.toList_some, condenseAll_singleton]
    rw [(he.append hinner).close rfl]

/-- The text in front of the first mark. -/
def leadingText (t : Text) : Text := t.takeWhile (· != '<')

/-- The text in front of the first mark is read first. -/
theorem read_leadingText (t : Text) :
    ∃ nodes, ReadTo (leadingText t).byteLength nodes [] (leadingText t) ∧
      (Builder.mk [] []).read 0 t =
        (Builder.mk nodes []).read (leadingText t).byteLength (t.dropWhile (· != '<')) := by
  have hfinished : ReadTo 0 [] [] [] := .finished (by simp)
  cases t with
  | nil => exact ⟨[], hfinished, rfl⟩
  | cons c t =>
    by_cases hc : c = '<'
    · subst hc
      exact ⟨[], hfinished, rfl⟩
    · have hfirst : Lexeme.first c t =
          ⟨.text, leadingText (c :: t), (c :: t).dropWhile (· != '<')⟩ := by
        simp [Lexeme.first, leadingText, hc]
      refine ⟨Markup.appendText [] ⟨0, leadingText (c :: t)⟩, ?_, ?_⟩
      · have hread := @ReadTo.appendText [] [] [] ⟨0, leadingText (c :: t)⟩ hfinished
        simpa [Excerpt.stop] using hread
      · rw [read_cons _ 0 hfirst, Nat.zero_add]
        rfl

end Builder

/-- Markup that differs in its blanks only has the same tree, and blanks in front do not count. -/
theorem condenseAll_parse_eq (h : Respaced t.trimStart t'.trimStart) :
    condenseAll (parse t) = condenseAll (parse t') := by
  obtain ⟨nodes, hread, hrest⟩ := Builder.read_leadingText t
  obtain ⟨nodes', hread', hrest'⟩ := Builder.read_leadingText t'
  have hmark : Uniform (· != '<') := .of_all (b := true) (by decide)
  have hblank : ∀ c, isBlank c → (c != '<') = true := by
    intro c hc
    have hne : c ≠ '<' := by
      rintro rfl
      exact absurd hc (by decide)
    simpa using hne
  have hlead := h.takeWhile hmark
  have hbehind := h.dropWhile hmark
  rw [takeWhile_trimStart hblank, takeWhile_trimStart hblank] at hlead
  rw [dropWhile_trimStart hblank, dropWhile_trimStart hblank] at hbehind
  have hsiblings : SiblingsMatch _ _ nodes nodes' := ⟨[], [], _, _, hread, hread', rfl, hlead⟩
  have hstart : Builder.MatchesAt _ _ ⟨nodes, []⟩ ⟨nodes', []⟩ :=
    ⟨⟨hsiblings.condenseAll_eq, .nil⟩, hsiblings⟩
  have hmatch := hstart.read hbehind
  rw [← hrest, ← hrest'] at hmatch
  exact Builder.condenseAll_finishAt hmatch.roots hmatch.pending rfl _ _

end Markup

end TemplateProjection
