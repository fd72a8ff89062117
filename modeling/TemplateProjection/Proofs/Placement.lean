import TemplateProjection.Proofs.Ascii
import TemplateProjection.Proofs.Excerpt
import TemplateProjection.Proofs.TreeBuilding

/-! Tokens, tags, attributes and texts of a markup tree stand in the source at their spans. -/
namespace TemplateProjection.Markup

variable {source : Text} {e : Excerpt}

theorem Token.lexFrom_in {offset : Nat} {t : Text} (h : (Excerpt.mk offset t).In source) :
    ∀ token ∈ lexFrom offset t, token.toExcerpt.In source := by
  fun_induction lexFrom offset t with
  | case1 => simp
  | case2 offset c t lexeme ih =>
    intro token hmem
    have happ := Lexeme.first_append c t
    rcases List.mem_cons.1 hmem with rfl | hmem
    · exact h.initial happ.symm
    · exact ih (h.final happ.symm) token hmem

theorem Token.lex_in (source : Text) : ∀ token ∈ lex source, token.toExcerpt.In source :=
  lexFrom_in ⟨[], [], by simp, rfl⟩

namespace Lexeme

/-- A tag starts with the mark of its kind. -/
def StartsAsKind (lexeme : Lexeme) : Prop :=
  (lexeme.kind = .openTag → ∃ c u, lexeme.text = '<' :: c :: u ∧ c.isAlpha) ∧
    (lexeme.kind = .endTag → ∃ u, lexeme.text = '<' :: '/' :: u)

theorem StartsAsKind.of_kind {lexeme : Lexeme} (hopen : lexeme.kind ≠ .openTag)
    (hend : lexeme.kind ≠ .endTag) : lexeme.StartsAsKind :=
  ⟨fun h => absurd h hopen, fun h => absurd h hend⟩

theorem closedByGt_startsAsKind {kind : TokenKind} {t : Text} (hopen : kind ≠ .openTag)
    (hend : kind = .endTag → ∃ u, t = '/' :: u) : (closedByGt kind t).StartsAsKind := by
  simp only [closedByGt]
  split
  · next head rest h =>
    refine ⟨fun hkind => absurd hkind hopen, fun hkind => ?_⟩
    obtain ⟨u, rfl⟩ := hend hkind
    obtain ⟨⟨a, b⟩, -, he⟩ := Option.map_eq_some_iff.1 h
    cases he
    exact ⟨a, rfl⟩
  · exact .of_kind (by simp) (by simp)

theorem openTag_startsAsKind {c : Char} {t : Text} (h : c.isAlpha) :
    (openTag (c :: t)).StartsAsKind := by
  refine ⟨fun _ => ?_, by simp [openTag]⟩
  have hname : (!(isBlank c || c == '/' || c == '>')) = true := isAlpha_not_tagEnd h
  simp only [openTag, List.takeWhile_cons, hname, if_true]
  exact ⟨c, _, rfl, h⟩

theorem ofMarkup_startsAsKind (t : Text) : (ofMarkup t).StartsAsKind := by
  simp only [ofMarkup]
  split
  · simp only [comment]
    split <;> exact .of_kind (by simp) (by simp)
  · split
    · next u _ => exact closedByGt_startsAsKind (by simp) fun _ => ⟨u, rfl⟩
    · exact closedByGt_startsAsKind (by simp) (by simp)
    · split
      · exact closedByGt_startsAsKind (by simp) (by simp)
      · exact .of_kind (by simp) (by simp)
    · split
      · next c u _ _ _ _ halpha => exact openTag_startsAsKind halpha
      · exact .of_kind (by simp) (by simp)
    · exact .of_kind (by simp) (by simp)

theorem first_startsAsKind (c : Char) (t : Text) : (first c t).StartsAsKind := by
  simp only [first]
  split
  · exact ofMarkup_startsAsKind t
  · exact .of_kind (by simp) (by simp)

end Lexeme

theorem Token.lexFrom_startsAsKind {offset : Nat} {t : Text} :
    ∀ token ∈ lexFrom offset t,
      (token.kind = .openTag → ∃ c u, token.text = '<' :: c :: u ∧ c.isAlpha) ∧
        (token.kind = .endTag → ∃ u, token.text = '<' :: '/' :: u) := by
  fun_induction lexFrom offset t with
  | case1 => simp
  | case2 offset c t lexeme ih =>
    intro token hmem
    rcases List.mem_cons.1 hmem with rfl | hmem
    · exact Lexeme.first_startsAsKind c t
    · exact ih token hmem

theorem byteLength_dropOpeners_le (t : Text) :
    (endTagName.dropOpeners t).byteLength ≤ t.byteLength := by
  fun_induction endTagName.dropOpeners t with
  | case1 t ih =>
    simp only [Text.byteLength_cons]
    omega
  | case2 t => exact Nat.le_refl _

/-- The name that an end tag closes is shorter than the tag by its opening at least. -/
theorem byteLength_endTagName_le (u : Text) :
    2 + (endTagName ('<' :: '/' :: u)).byteLength ≤ Text.byteLength ('<' :: '/' :: u) := by
  have hname : (endTagName ('<' :: '/' :: u)).byteLength ≤ Text.byteLength u := by
    refine Nat.le_trans (Text.byteLength_dropTrailing_le _ _) ?_
    exact Nat.le_trans (Text.byteLength_dropTrailing_le _ _) (byteLength_dropOpeners_le u)
  have hmark : Char.utf8Size '<' + Char.utf8Size '/' = 2 := by decide
  simp only [Text.byteLength_cons]
  omega

/-- The name and the value stand at their spans, and the attribute starts with its name and ends in
the source. -/
structure Attribute.PlacedIn (source : Text) (a : Attribute) : Prop where
  name : source.slice? a.nameSpan = some a.name
  value : ∀ v ∈ a.value, source.slice? v.span = some v.text
  start : a.span.start = a.nameSpan.start
  stop : (Excerpt.mk a.span.stop []).In source

theorem readValue_in (h : e.In source) :
    (readValue e).1.In source ∧ (readValue e).2.In source := by
  simp only [readValue]
  split
  · exact ⟨h, h⟩
  · split
    · exact ⟨(h.drop 1).takeWhile _, ((h.drop 1).dropWhile _).drop 1⟩
    · exact ⟨h.takeWhile _, h.dropWhile _⟩

theorem start_le_readValue (e : Excerpt) : e.start ≤ (readValue e).2.start := by
  simp only [readValue]
  split
  · exact Nat.le_refl _
  · split
    · simp only [Excerpt.drop, Excerpt.dropWhile]
      omega
    · simp only [Excerpt.dropWhile]
      omega

theorem attribute?_placed {name : Excerpt} {value : Option Excerpt} {stop : Nat} {a : Attribute}
    (hname : name.In source) (hvalue : ∀ v ∈ value, v.In source)
    (hstop : (Excerpt.mk stop []).In source) (hle : name.start ≤ stop)
    (h : attribute? name value stop = some a) : a.PlacedIn source := by
  simp only [attribute?] at h
  split at h
  · simp at h
  · cases h
    refine ⟨Excerpt.in_iff_slice?.1 hname, ?_, rfl, ?_⟩
    · intro v hv
      obtain ⟨u, hu, rfl⟩ := Option.map_eq_some_iff.1 hv
      exact Excerpt.in_iff_slice?.1 (hvalue u hu)
    · rw [Span.stop_between hle]
      exact hstop

theorem readAttribute_placed (h : e.In source) :
    (∀ a ∈ (readAttribute e).1, a.PlacedIn source) ∧ (readAttribute e).2.In source := by
  have hname := h.breakAt_fst endsAttributeName
  have hrest := h.breakAt_snd endsAttributeName
  have hnext := hrest.dropWhile isAsciiBlank
  simp only [readAttribute]
  split
  · have hvalue := readValue_in ((hnext.drop 1).dropWhile isAsciiBlank)
    have hle := start_le_readValue
      ((((e.breakAt endsAttributeName).2.dropWhile isAsciiBlank).drop 1).dropWhile isAsciiBlank)
    refine ⟨fun a ha => attribute?_placed hname ?_ hvalue.2.atStart ?_ ha, hvalue.2⟩
    · rintro v ⟨⟩
      exact hvalue.1
    · simp only [Excerpt.breakAt, Excerpt.dropWhile, Excerpt.drop] at hle ⊢
      omega
  · refine ⟨fun a ha => attribute?_placed hname (by simp) hname.atStop ?_ ha, hrest⟩
    exact Nat.le_add_right _ _

theorem readAttributes_placed (h : e.In source) :
    ∀ a ∈ (readAttributes e).1, a.PlacedIn source := by
  fun_induction readAttributes e with
  | case1 => simp
  | case2 e c t he _ _ ih => exact ih (h.drop 1)
  | case3 => simp
  | case4 => simp
  | case5 e t he _ _ _ _ ih => exact ih (h.drop 1)
  | case6 e c t he _ _ _ _ _ _ attributes closed heq ih =>
    intro a ha
    rcases List.mem_append.1 ha with ha | ha
    · exact (readAttribute_placed h).1 a (Option.mem_toList.1 ha)
    · exact ih (readAttribute_placed h).2 a (by simpa [heq] using ha)

theorem not_isAsciiBlank_of_mem_name {c : Char} {t : Text}
    (h : c ∈ (Text.breakAt endsAttributeName t).1) : ¬ isAsciiBlank c := by
  induction t with
  | nil => cases h
  | cons d t ih =>
    simp only [Text.breakAt] at h
    split at h
    · cases h
    · next hstop =>
      rcases List.mem_cons.1 h with rfl | h
      · intro hc
        exact hstop (by simp [endsAttributeName, hc])
      · exact ih h

theorem attribute?_name {name : Excerpt} {value : Option Excerpt} {stop : Nat} {a : Attribute}
    (h : attribute? name value stop = some a) : a.name = name.text := by
  simp only [attribute?] at h
  split at h
  · cases h
  · cases h
    rfl

theorem readAttribute_name_solid (e : Excerpt) :
    ∀ a ∈ (readAttribute e).1, ∀ c ∈ a.name, ¬ isAsciiBlank c := by
  intro a ha c hc
  simp only [readAttribute] at ha
  split at ha
  · rw [attribute?_name ha] at hc
    exact not_isAsciiBlank_of_mem_name hc
  · rw [attribute?_name ha] at hc
    exact not_isAsciiBlank_of_mem_name hc

theorem readAttributes_name_solid (e : Excerpt) :
    ∀ a ∈ (readAttributes e).1, ∀ c ∈ a.name, ¬ isAsciiBlank c := by
  fun_induction readAttributes e with
  | case1 => simp
  | case2 e c t he _ _ ih => exact ih
  | case3 => simp
  | case4 => simp
  | case5 e t he _ _ _ _ ih => exact ih
  | case6 e c t he _ _ _ _ _ _ attributes closed heq ih =>
    intro a ha
    rcases List.mem_append.1 ha with ha | ha
    · exact readAttribute_name_solid e a (Option.mem_toList.1 ha)
    · exact ih a (by simpa [heq] using ha)

/-- The tag is one that stands in the source. -/
def OpenTag.ReadIn (source : Text) (tag : OpenTag) : Prop :=
  ∃ e : Excerpt, e.In source ∧ (∃ c u, e.text = '<' :: c :: u ∧ c.isAlpha) ∧ tag = .ofExcerpt e

theorem OpenTag.ReadIn.attributes {tag : OpenTag} (h : tag.ReadIn source) :
    ∀ a ∈ tag.attributes, a.PlacedIn source := by
  obtain ⟨e, he, -, rfl⟩ := h
  exact readAttributes_placed ((he.drop 1).dropWhile _)

/-- The names of attributes have no blanks. -/
theorem OpenTag.ReadIn.names_solid {tag : OpenTag} (h : tag.ReadIn source) :
    ∀ a ∈ tag.attributes, ∀ c ∈ a.name, ¬ isAsciiBlank c := by
  obtain ⟨e, -, -, rfl⟩ := h
  exact readAttributes_name_solid _

/-- An end tag with this name stands in the source, and `span` is where its name is taken to be. -/
def EndTagIn (source name : Text) (span : Span) : Prop :=
  ∃ e : Excerpt, e.In source ∧ (∃ u, e.text = '<' :: '/' :: u) ∧
    name.eqIgnoringCase (endTagName e.text) ∧
    span = ⟨e.start + 2, (endTagName e.text).byteLength⟩

/-- The node is made of what stands in the source. -/
inductive Node.ReadIn (source : Text) : Node → Prop
  | element {tag : OpenTag} {children : List Node} {stop : Nat} {endName : Option Span}
      (htag : tag.ReadIn source) (hchildren : ∀ node ∈ children, node.ReadIn source)
      (hstop : (Excerpt.mk stop []).In source)
      (hend : ∀ span ∈ endName, EndTagIn source tag.name span) :
      ReadIn source (.element tag children (.between tag.span.start stop) endName)
  | text {e : Excerpt} (he : e.In source) : ReadIn source (.text e.text e.span)
  | comment {e : Excerpt} (he : e.In source) : ReadIn source (.comment (commentData e.text) e.span)
  | declaration {e : Excerpt} (he : e.In source) : ReadIn source (.declaration e.text e.span)

def AllReadIn (source : Text) (nodes : List Node) : Prop := ∀ node ∈ nodes, node.ReadIn source

theorem AllReadIn.append {nodes nodes' : List Node} (h : AllReadIn source nodes)
    (h' : AllReadIn source nodes') : AllReadIn source (nodes ++ nodes') :=
  List.forall_mem_append.2 ⟨h, h'⟩

theorem AllReadIn.concat {nodes : List Node} {node : Node} (h : AllReadIn source nodes)
    (hnode : node.ReadIn source) : AllReadIn source (nodes ++ [node]) :=
  h.append (List.forall_mem_singleton.2 hnode)

/-- An element without content ends with its own tag. -/
theorem OpenTag.ReadIn.leaf {tag : OpenTag} (h : tag.ReadIn source) :
    (Node.element tag [] tag.span none).ReadIn source := by
  obtain ⟨e, he, hmark, rfl⟩ := h
  have hspan : (OpenTag.ofExcerpt e).span = .between e.start e.stop := by
    simp only [OpenTag.ofExcerpt, Excerpt.span, Excerpt.stop, Span.between, Span.mk.injEq, true_and]
    omega
  rw [hspan]
  exact .element ⟨e, he, hmark, rfl⟩ (by simp) he.atStop (by simp)

/-- Joined texts are adjacent in the source. -/
theorem appendText_readIn {siblings : List Node} (h : AllReadIn source siblings)
    (he : e.In source) : AllReadIn source (appendText siblings e) := by
  simp only [appendText]
  split
  · next before span hlast =>
    split
    · next hstop =>
      generalize hnode : Node.text before span = node at hlast
      have hread := h node (List.mem_of_getLast? hlast)
      cases hread with
      | text hbefore =>
        obtain ⟨rfl, rfl⟩ := Node.text.inj hnode
        next f =>
        have hcover : f.span.cover e.span = (Excerpt.mk f.start (f.text ++ e.text)).span := by
          simp only [Excerpt.span, Span.stop] at hstop
          simp only [Span.cover, Span.between, Span.stop, Excerpt.span, Text.byteLength_append,
            Span.mk.injEq]
          omega
        refine AllReadIn.concat (fun n hn => h n (List.dropLast_subset _ hn)) ?_
        rw [hcover]
        exact .text (hbefore.append he hstop)
      | element => cases hnode
      | comment => cases hnode
      | declaration => cases hnode
    · exact h.concat (.text he)
  · exact h.concat (.text he)

namespace Builder

/-- Everything built so far is made of what stands in the source. -/
structure ReadIn (source : Text) (b : Builder) : Prop where
  roots : AllReadIn source b.roots
  tags : ∀ e ∈ b.pending, e.tag.ReadIn source
  children : ∀ e ∈ b.pending, AllReadIn source e.children

namespace ReadIn

variable {b : Builder} {roots : List Node}

theorem modify {f : List Node → List Node} (h : b.ReadIn source)
    (hf : ∀ nodes, AllReadIn source nodes → AllReadIn source (f nodes)) :
    (b.modify f).ReadIn source := by
  obtain ⟨roots, pending⟩ := b
  cases pending with
  | nil => exact ⟨hf roots h.roots, h.tags, h.children⟩
  | cons top pending =>
    obtain ⟨htag, htags⟩ := List.forall_mem_cons.1 h.tags
    obtain ⟨htop, hchildren⟩ := List.forall_mem_cons.1 h.children
    exact ⟨h.roots, List.forall_mem_cons.2 ⟨htag, htags⟩,
      List.forall_mem_cons.2 ⟨hf top.children htop, hchildren⟩⟩

theorem push {node : Node} (h : b.ReadIn source) (hnode : node.ReadIn source) :
    (b.push node).ReadIn source :=
  h.modify fun _ hnodes => hnodes.concat hnode

theorem closeInnermost {top : OpenElement} {pending : List OpenElement} {stop : Nat}
    {endName : Option Span} (h : ReadIn source ⟨roots, top :: pending⟩)
    (hstop : (Excerpt.mk stop []).In source)
    (hend : ∀ span ∈ endName, EndTagIn source top.tag.name span) :
    ((Builder.mk roots pending).push (top.close stop endName)).ReadIn source := by
  obtain ⟨htag, htags⟩ := List.forall_mem_cons.1 h.tags
  obtain ⟨htop, hchildren⟩ := List.forall_mem_cons.1 h.children
  exact push ⟨h.roots, htags, hchildren⟩ (.element htag htop hstop hend)

/-- The elements inside the one that an end tag names end where the end tag starts. -/
theorem close (h : b.ReadIn source) (he : e.In source)
    (hmark : ∃ u, e.text = '<' :: '/' :: u) : (b.close e).ReadIn source := by
  rcases close_cases h fun _ _ _ h _ => h.closeInnermost he.atStart (by simp) with
    hsame | ⟨top, outer, h, hname, hclose⟩
  · rwa [hsame]
  · rw [hclose]
    refine h.closeInnermost he.atStop ?_
    rintro span ⟨⟩
    exact ⟨e, he, hmark, hname, rfl⟩

theorem openTag {tag : OpenTag} (h : b.ReadIn source) (htag : tag.ReadIn source) :
    (b.openTag tag).ReadIn source := by
  simp only [Builder.openTag]
  split
  · exact h.push htag.leaf
  · have hnone : AllReadIn source [] := by simp [AllReadIn]
    exact ⟨h.roots, List.forall_mem_cons.2 ⟨htag, h.tags⟩,
      List.forall_mem_cons.2 ⟨hnone, h.children⟩⟩

theorem step {token : Token} (h : b.ReadIn source) (htoken : token ∈ Token.lex source) :
    (b.step token).ReadIn source := by
  have hin := Token.lex_in source token htoken
  obtain ⟨hopen, hend⟩ := Token.lexFrom_startsAsKind token htoken
  simp only [Builder.step]
  split
  · exact h.modify fun _ hnodes => appendText_readIn hnodes hin
  · exact h.modify fun _ hnodes => appendText_readIn hnodes hin
  · exact h.push (.comment hin)
  · exact h.push (.declaration hin)
  · next hkind => exact h.openTag ⟨token.toExcerpt, hin, hopen hkind, rfl⟩
  · next hkind => exact h.close hin (hend hkind)

theorem foldl {tokens : List Token} (h : b.ReadIn source)
    (htokens : ∀ token ∈ tokens, token ∈ Token.lex source) :
    (tokens.foldl Builder.step b).ReadIn source := by
  induction tokens generalizing b with
  | nil => exact h
  | cons token tokens ih =>
    obtain ⟨htoken, htokens⟩ := List.forall_mem_cons.1 htokens
    exact ih (h.step htoken) htokens

end ReadIn

end Builder

/-- What a markup tree says about its source is there. -/
theorem parse_readIn (source : Text) : AllReadIn source (parse source) := by
  have hnone : AllReadIn source [] := by simp [AllReadIn]
  have h := Builder.ReadIn.foldl (b := ⟨[], []⟩) ⟨hnone, by simp, by simp⟩
    fun token (htoken : token ∈ Token.lex source) => htoken
  have hstop : (Excerpt.mk source.byteLength []).In source := ⟨source, [], by simp, rfl⟩
  have hparse := parse_induction h fun _ _ _ h => h.closeInnermost hstop (by simp)
  exact hparse.roots

end TemplateProjection.Markup
