import TemplateProjection.Proofs.TagText
import TemplateProjection.Proofs.TreeBuilding

/-!
Texts that spell out a forest, with any run of text between two tags. Parsing such a text gives the
forest back.
-/
namespace TemplateProjection.Markup

variable {t rest tail run name : Text} {node : Node} {nodes : List Node}

/-- The text is one declaration. -/
def IsDeclaration (t : Text) : Prop := Token.lex t = [⟨⟨0, t⟩, .declaration⟩]

/-- A construct without content. -/
inductive Atom : Text → Node → Prop
  | comment {data : Text} (span : Span) (h : ¬ "-->".toList <:+: data) :
      Atom ("<!--".toList ++ (data ++ "-->".toList)) (.comment data span)
  | declaration {t : Text} (span : Span) (h : IsDeclaration t) : Atom t (.declaration t span)
  | leaf {tag : OpenTag} (span : Span) (endName : Option Span) (h : tag.Printable)
      (hleaf : tag.selfClosing || isVoid tag.name) :
      Atom tag.render (.element tag [] span endName)

/-- A run of text as a node. -/
def textNodes (run : Text) : List Node := if run.isEmpty then [] else [.text run (.empty 0)]

/-- The text spells out the forest. Before each construct stands a run of text, which may be
empty. -/
inductive Written : Text → List Node → Prop
  | last {run : Text} (hrun : '<' ∉ run) : Written run (textNodes run)
  | atom {run t rest : Text} {node : Node} {nodes : List Node} (hrun : '<' ∉ run) (ht : Atom t node)
      (hrest : Written rest nodes) : Written (run ++ (t ++ rest)) (textNodes run ++ node :: nodes)
  | element {run inner rest : Text} {tag : OpenTag} {children nodes : List Node} (span : Span)
      (endName : Option Span) (hrun : '<' ∉ run) (htag : tag.Printable)
      (hopen : (tag.selfClosing || isVoid tag.name) = false) (hinner : Written inner children)
      (hrest : Written rest nodes) :
      Written (run ++ (tag.render ++ (inner ++ (renderEndTag tag.name ++ rest))))
        (textNodes run ++ .element tag children span endName :: nodes)

theorem bareAll_textNodes (run : Text) : bareAll (textNodes run) = textNodes run := by
  cases run <;> rfl

/-- The first end of a comment is the one after its data. -/
theorem around?_commentEnd {data : Text} (h : ¬ "-->".toList <:+: data) (rest : Text) :
    Text.around? "-->".toList (data ++ ("-->".toList ++ rest)) = some (data, rest) := by
  induction data with
  | nil => simp [Text.around?, Text.after?]
  | cons c data ih =>
    have hnone : Text.after? "-->".toList (c :: data ++ ("-->".toList ++ rest)) = none := by
      -- an occurrence that starts in the data ends there too, for its `>` cannot be a hyphen
      cases hafter : Text.after? "-->".toList (c :: data ++ ("-->".toList ++ rest)) with
      | none => rfl
      | some u =>
        have happ := Text.append_of_after? hafter
        rcases data with _ | ⟨d, _ | ⟨e, data⟩⟩
        · simp at happ
        · simp at happ
        · simp only [List.cons_append] at happ
          have hstart : "-->".toList <+: c :: d :: e :: data := by
            obtain ⟨rfl, rfl, rfl, -⟩ : '-' = c ∧ '-' = d ∧ '>' = e ∧ _ := by simpa using happ
            exact ⟨data, rfl⟩
          exact absurd hstart.isInfix h
    have hdata := ih fun hin => h (hin.trans (List.suffix_cons c data).isInfix)
    rw [List.cons_append] at hnone ⊢
    simp only [Text.around?, hnone, hdata, Option.map_some]

theorem commentData_written (data : Text) :
    commentData ("<!--".toList ++ (data ++ "-->".toList)) = data := by
  simp only [commentData, Text.after?_append, Text.before?_append, Option.getD_some]

theorem Lexeme.first_comment {data : Text} (h : ¬ "-->".toList <:+: data) (rest : Text) :
    Lexeme.first '<' ("!--".toList ++ (data ++ ("-->".toList ++ rest))) =
      ⟨.comment, "<!--".toList ++ (data ++ "-->".toList), rest⟩ := by
  simp only [Lexeme.first, if_true, Lexeme.ofMarkup, Text.after?_append, Lexeme.comment,
    around?_commentEnd h, List.append_assoc]

theorem throughGt?_append_gt {s : Text} (h : '>' ∉ s) (t : Text) :
    throughGt? (s ++ '>' :: t) = some (s ++ ['>'], t) := by
  induction s with
  | nil => simp [throughGt?]
  | cons c s ih =>
    have hc : c ≠ '>' := fun hc => h (hc ▸ List.mem_cons_self)
    have hs : '>' ∉ s := fun hs => h (List.mem_cons_of_mem c hs)
    simp [throughGt?, hc, ih hs]

theorem throughGt?_append_right {head tail : Text} (h : throughGt? t = some (head, tail))
    (rest : Text) : throughGt? (t ++ rest) = some (head, tail ++ rest) := by
  induction t generalizing head with
  | nil => cases h
  | cons c t ih =>
    simp only [List.cons_append, throughGt?] at h ⊢
    split at h
    · next hc =>
      cases h
      rw [if_pos hc]
    · next hc =>
      obtain ⟨⟨a, b⟩, hab, he⟩ := Option.map_eq_some_iff.1 h
      cases he
      rw [if_neg hc, ih hab, Option.map_some]

theorem getLast?_of_throughGt? {head tail : Text} (h : throughGt? t = some (head, tail)) :
    head.getLast? = some '>' := by
  induction t generalizing head with
  | nil => cases h
  | cons c t ih =>
    simp only [throughGt?] at h
    split at h
    · next hc =>
      cases h
      rw [hc]
      rfl
    · obtain ⟨⟨a, b⟩, hab, he⟩ := Option.map_eq_some_iff.1 h
      cases he
      rw [List.getLast?_cons, ih hab]
      rfl

/-- What stands after the `<` of a declaration. -/
def opensDeclaration : Text → Bool
  | '?' :: _ => true
  | '!' :: c :: _ => c.isAlpha
  | _ => false

theorem opensDeclaration_append (h : opensDeclaration t) (rest : Text) :
    opensDeclaration (t ++ rest) := by
  unfold opensDeclaration at h
  split at h
  · rfl
  · exact h
  · cases h

theorem Lexeme.ofMarkup_declaration (h : opensDeclaration t) :
    Lexeme.ofMarkup t = Lexeme.closedByGt .declaration t := by
  unfold opensDeclaration at h
  split at h
  · rfl
  · next c u =>
    have hc : c ≠ '-' := by
      rintro rfl
      exact absurd h (by decide)
    have hafter : Text.after? "!--".toList ('!' :: c :: u) = none := by
      simp [Text.after?, Ne.symm hc]
    simp only [Lexeme.ofMarkup, hafter, if_pos h]
  · cases h

theorem Lexeme.opensDeclaration_of_kind (h : (Lexeme.ofMarkup t).kind = .declaration) :
    opensDeclaration t := by
  unfold Lexeme.ofMarkup at h
  split at h
  · simp only [Lexeme.comment] at h
    split at h <;> cases h
  · split at h
    · simp only [Lexeme.closedByGt] at h
      split at h <;> cases h
    · rfl
    · split at h
      · assumption
      · cases h
    · split at h <;> cases h
    · cases h

/-- A declaration ends at its first `>`. -/
theorem isDeclaration_iff :
    IsDeclaration t ↔ ∃ u, t = '<' :: u ∧ opensDeclaration u ∧ throughGt? u = some (u, []) := by
  cases t with
  | nil => simp [IsDeclaration, Token.lex, Token.lexFrom]
  | cons c u =>
    rw [IsDeclaration, Token.lex, Token.lexFrom]
    constructor
    · intro h
      have hfirst := (List.cons.inj h).1
      have hkind : (Lexeme.first c u).kind = .declaration := congrArg Token.kind hfirst
      have htext : (Lexeme.first c u).text = c :: u := congrArg (·.text) hfirst
      by_cases hc : c = '<'
      · subst hc
        rw [Lexeme.first, if_pos rfl] at hkind htext
        have hopens := Lexeme.opensDeclaration_of_kind hkind
        refine ⟨u, rfl, hopens, ?_⟩
        rw [Lexeme.ofMarkup_declaration hopens, Lexeme.closedByGt] at hkind htext
        cases hthrough : throughGt? u with
        | none =>
          rw [hthrough] at hkind
          cases hkind
        | some parts =>
          obtain ⟨head, tail⟩ := parts
          rw [hthrough] at htext
          obtain rfl : head = u := (List.cons.inj htext).2
          have hall := (throughGt?_append hthrough).trans (List.append_nil head).symm
          rw [List.append_cancel_left hall]
      · rw [Lexeme.first, if_neg hc] at hkind
        cases hkind
    · rintro ⟨v, heq, hopens, hthrough⟩
      obtain ⟨rfl, rfl⟩ := List.cons.inj heq
      simp only [Lexeme.first, if_true, Lexeme.ofMarkup_declaration hopens, Lexeme.closedByGt,
        hthrough, Token.lexFrom]

/-- A declaration is read as one before whatever comes after. -/
theorem IsDeclaration.first {u : Text} (h : IsDeclaration ('<' :: u)) (rest : Text) :
    Lexeme.first '<' (u ++ rest) = ⟨.declaration, '<' :: u, rest⟩ := by
  obtain ⟨v, heq, hopens, hthrough⟩ := isDeclaration_iff.1 h
  cases heq
  rw [Lexeme.first, if_pos rfl, Lexeme.ofMarkup_declaration (opensDeclaration_append hopens rest),
    Lexeme.closedByGt, throughGt?_append_right hthrough, List.nil_append]

theorem Atom.cons (h : Atom t node) : ∃ u, t = '<' :: u := by
  cases h with
  | comment span h => exact ⟨_, rfl⟩
  | declaration span h =>
    obtain ⟨u, hu, -⟩ := isDeclaration_iff.1 h
    exact ⟨u, hu⟩
  | leaf span endName h hleaf => exact ⟨_, rfl⟩

theorem Lexeme.first_endTag (h : isElementName name) (rest : Text) :
    Lexeme.first '<' ('/' :: (name ++ '>' :: rest)) = ⟨.endTag, renderEndTag name, rest⟩ := by
  have hgt : '>' ∉ '/' :: name := by
    simpa using not_mem_elementName h (by decide)
  have hthrough := throughGt?_append_gt hgt rest
  rw [List.cons_append] at hthrough
  have hafter : Text.after? "!--".toList ('/' :: (name ++ '>' :: rest)) = none := by
    simp [Text.after?]
  simp only [Lexeme.first, if_true, Lexeme.ofMarkup, hafter, Lexeme.closedByGt, hthrough]
  rfl

theorem endTagName_renderEndTag (h : isElementName name) :
    endTagName (renderEndTag name) = name := by
  have hmark := isMark_of_mem_elementName h
  have hlast : ∀ c ∈ name.getLast?, isMark c = false :=
    fun c hc => hmark c (List.mem_of_getLast? hc)
  have hopeners : endTagName.dropOpeners (name ++ ['>']) = name ++ ['>'] := by
    obtain ⟨c, t, rfl, hc⟩ := exists_of_isElementName h
    have hlt : c ≠ '<' := ne_of_isMark (hmark c List.mem_cons_self) (by decide)
    unfold endTagName.dropOpeners
    split
    · next heq => exact absurd (List.cons.inj heq).1 hlt
    · rfl
  have hgt : (name ++ ['>']).dropTrailing (· == '>') = name := by
    rw [Text.dropTrailing_concat name (by decide)]
    refine Text.dropTrailing_eq_self fun c hc => ?_
    simpa using ne_of_isMark (hlast c hc) (by decide)
  calc endTagName (renderEndTag name)
    _ = ((endTagName.dropOpeners (name ++ ['>'])).dropTrailing (· == '>')).trimEnd := rfl
    _ = name.trimEnd := by rw [hopeners, hgt]
    _ = name := Text.trimEnd_eq_self fun c hc => by simp [isBlank_of_isMark (hlast c hc)]

namespace Builder

variable {b : Builder}

/-- Read the tokens of a text that starts at `offset`. -/
def read (b : Builder) (offset : Nat) (t : Text) : Builder :=
  (Token.lexFrom offset t).foldl step b

theorem read_nil (b : Builder) (offset : Nat) : b.read offset [] = b := by
  rw [read, Token.lexFrom]
  rfl

theorem read_cons (b : Builder) (offset : Nat) {c : Char} {kind : TokenKind} {text : Text}
    (h : Lexeme.first c t = ⟨kind, text, rest⟩) :
    b.read offset (c :: t) =
      (b.step ⟨⟨offset, text⟩, kind⟩).read (offset + text.byteLength) rest := by
  simp only [read]
  rw [Token.lexFrom, h]
  rfl

/-- A run of text becomes one node, or none if it is empty. -/
theorem read_run (hb : b.TextStarts) (offset : Nat) (hrun : '<' ∉ run) (rest : Text)
    (hrest : ∀ c ∈ rest.head?, c = '<') :
    ∃ found, bareAll found = textNodes run ∧
      b.read offset (run ++ rest) =
        (b.modify (· ++ found)).read (offset + run.byteLength) rest := by
  cases run with
  | nil => exact ⟨[], rfl, by rw [modify_append_nil]; rfl⟩
  | cons c run =>
    have hc : c ≠ '<' := fun hc => hrun (hc ▸ List.mem_cons_self)
    have hall : ∀ d ∈ run, (d != '<') = true := by
      intro d hd
      simpa using fun heq : d = '<' => hrun (heq ▸ List.mem_cons_of_mem c hd)
    have hstop : ∀ d ∈ rest.head?, ¬ (d != '<') = true := fun d hd => by simp [hrest d hd]
    have hfirst : Lexeme.first c (run ++ rest) = ⟨.text, c :: run, rest⟩ := by
      simp only [Lexeme.first, if_neg hc, takeWhile_append_of_head hall hstop,
        dropWhile_append_of_head hall hstop]
    refine ⟨[.text (c :: run) ⟨offset, Text.byteLength (c :: run)⟩], rfl, ?_⟩
    rw [List.cons_append, read_cons b offset hfirst]
    have hstep : b.step ⟨⟨offset, c :: run⟩, .text⟩ =
        b.modify (· ++ [.text (c :: run) ⟨offset, Text.byteLength (c :: run)⟩]) := by
      refine modify_congr ?_
      simp only [appendText]
      split
      · next before span hlast => exact absurd (hb _ hlast) (by simp [Node.isText])
      · rfl
    rw [hstep]

/-- An opening tag is read as it was written. -/
theorem read_openTag {tag : OpenTag} (h : tag.Printable) (b : Builder) (offset : Nat)
    (rest : Text) :
    ∃ found : OpenTag, found.bare = tag.bare ∧
      b.read offset (tag.render ++ rest) =
        (b.openTag found).read (offset + tag.render.byteLength) rest := by
  refine ⟨OpenTag.ofExcerpt ⟨offset, tag.render⟩, h.ofExcerpt offset, ?_⟩
  have hread := read_cons b offset (h.first rest)
  rw [OpenTag.render, List.cons_append, List.append_assoc, hread]
  rfl

/-- An end tag closes the element that is being read. -/
theorem read_endTag {tag : OpenTag} (h : isElementName tag.name) (roots children : List Node)
    (pending : List OpenElement) (offset : Nat) (rest : Text) :
    ∃ span endName,
      (Builder.mk roots (⟨tag, children⟩ :: pending)).read offset (renderEndTag tag.name ++ rest) =
        ((Builder.mk roots pending).push (.element tag children span endName)).read
          (offset + (renderEndTag tag.name).byteLength) rest := by
  let b := Builder.mk roots (⟨tag, children⟩ :: pending)
  have hsame : tag.name.eqIgnoringCase tag.name = true := by simp [Text.eqIgnoringCase]
  have hread := read_cons b offset (Lexeme.first_endTag h rest)
  have hclose : ∃ span endName, b.step ⟨⟨offset, renderEndTag tag.name⟩, .endTag⟩ =
      (Builder.mk roots pending).push (.element tag children span endName) := by
    simp only [b, step, Builder.close, endTagName_renderEndTag h, List.any_cons, hsame,
      Bool.true_or, if_true, closeThrough, Option.toList_none, List.append_nil]
    exact ⟨_, _, rfl⟩
  obtain ⟨span, endName, hclose⟩ := hclose
  refine ⟨span, endName, ?_⟩
  rw [← hclose, ← hread]
  simp [renderEndTag, b]

end Builder

/-- Wherever it stands, the text is read as one more sibling. -/
def ReadAs (t : Text) (node : Node) : Prop :=
  ∀ (b : Builder) (offset : Nat) (rest : Text), ∃ found : Node,
    found.bare = node.bare ∧ found.isText = false ∧
      b.read offset (t ++ rest) = (b.push found).read (offset + t.byteLength) rest

/-- Before an end of the text or a tag, the text is read as these further siblings. -/
def AllReadAs (t : Text) (nodes : List Node) : Prop :=
  ∀ (b : Builder) (offset : Nat) (tail : Text), b.TextStarts → (∀ c ∈ tail.head?, c = '<') →
    ∃ found, bareAll found = bareAll nodes ∧
      b.read offset (t ++ tail) = (b.modify (· ++ found)).read (offset + t.byteLength) tail

theorem Atom.readAs (h : Atom t node) : ReadAs t node := by
  intro b offset rest
  cases h with
  | @comment data span h =>
    let e := Excerpt.mk offset ("<!--".toList ++ (data ++ "-->".toList))
    refine ⟨.comment data e.span, rfl, rfl, ?_⟩
    have hstep : b.step ⟨e, .comment⟩ = b.push (.comment data e.span) := by
      simp only [Builder.step, e, commentData_written]
    have hread := b.read_cons offset (Lexeme.first_comment h rest)
    rw [List.append_assoc, List.append_assoc, ← hstep, ← hread]
    rfl
  | declaration span h =>
    obtain ⟨u, rfl, -⟩ := isDeclaration_iff.1 h
    exact ⟨.declaration ('<' :: u) (Excerpt.mk offset ('<' :: u)).span, rfl, rfl,
      b.read_cons offset (h.first rest)⟩
  | @leaf tag span endName h hleaf =>
    obtain ⟨found, hfound, hread⟩ := Builder.read_openTag h b offset rest
    refine ⟨.element found [] found.span none, by simp only [Node.bare, hfound], rfl, ?_⟩
    rw [hread, Builder.openTag, OpenTag.name_of_bare_eq hfound,
      OpenTag.selfClosing_of_bare_eq hfound, if_pos hleaf]

/-- An element is read as one if its content is. -/
theorem AllReadAs.element {inner : Text} {tag : OpenTag} {children : List Node} (span : Span)
    (endName : Option Span) (htag : tag.Printable)
    (hopen : (tag.selfClosing || isVoid tag.name) = false) (hinner : AllReadAs inner children) :
    ReadAs (tag.render ++ (inner ++ renderEndTag tag.name))
      (.element tag children span endName) := by
  intro b offset rest
  obtain ⟨found, hfound, hreadOpen⟩ := Builder.read_openTag htag b offset
    (inner ++ (renderEndTag tag.name ++ rest))
  have hname := OpenTag.name_of_bare_eq hfound
  have hpending : b.openTag found = ⟨b.roots, ⟨found, []⟩ :: b.pending⟩ := by
    rw [Builder.openTag, hname, OpenTag.selfClosing_of_bare_eq hfound, hopen]
    rfl
  obtain ⟨kids, hkids, hreadInner⟩ := hinner ⟨b.roots, ⟨found, []⟩ :: b.pending⟩
    (offset + tag.render.byteLength) (renderEndTag tag.name ++ rest)
    (Builder.textStarts_nil rfl) (by simp [renderEndTag])
  obtain ⟨span', endName', hreadEnd⟩ :=
    Builder.read_endTag (hname ▸ htag.name) b.roots kids b.pending
      (offset + tag.render.byteLength + inner.byteLength) rest
  refine ⟨.element found kids span' endName', ?_, rfl, ?_⟩
  · simp only [Node.bare, hfound, hkids]
  · rw [hname] at hreadEnd
    calc b.read offset (tag.render ++ (inner ++ renderEndTag tag.name) ++ rest)
      _ = b.read offset (tag.render ++ (inner ++ (renderEndTag tag.name ++ rest))) := by
        simp only [List.append_assoc]
      _ = _ := hreadOpen.trans (hpending ▸ hreadInner)
      _ = _ := hreadEnd
      _ = _ := by simp only [Text.byteLength_append, Nat.add_assoc]

/-- A run of text, a construct and what follows are read one after another. -/
theorem AllReadAs.cons (hrun : '<' ∉ run) (hstart : ∃ u, t = '<' :: u) (ht : ReadAs t node)
    (hrest : AllReadAs rest nodes) :
    AllReadAs (run ++ (t ++ rest)) (textNodes run ++ node :: nodes) := by
  intro b offset tail hb htail
  have hlt : ∀ c ∈ (t ++ (rest ++ tail)).head?, c = '<' := by
    obtain ⟨u, rfl⟩ := hstart
    simp
  obtain ⟨text, htext, hreadText⟩ := Builder.read_run hb offset hrun _ hlt
  obtain ⟨found, hfound, hisText, hreadNode⟩ :=
    ht (b.modify (· ++ text)) (offset + run.byteLength) (rest ++ tail)
  obtain ⟨after, hafter, hread⟩ := hrest _ (offset + run.byteLength + t.byteLength) tail
    (Builder.textStarts_push _ hisText) htail
  refine ⟨text ++ found :: after, ?_, ?_⟩
  · simp [htext, bareAll_textNodes, hfound, bareAll, hafter]
  · rw [List.append_assoc, List.append_assoc, hreadText, hreadNode, hread, Builder.push,
      Builder.modify_append_append, Builder.modify_append_append]
    simp [Nat.add_assoc]

theorem Written.allReadAs (h : Written t nodes) : AllReadAs t nodes := by
  induction h with
  | @last run hrun =>
    intro b offset tail hb htail
    obtain ⟨found, hfound, hread⟩ := Builder.read_run hb offset hrun tail htail
    exact ⟨found, by rw [hfound, bareAll_textNodes], hread⟩
  | atom hrun ht _ ih => exact .cons hrun ht.cons ht.readAs ih
  | @element run inner rest tag _ _ span endName hrun htag hopen _ _ ihInner ihRest =>
    have hstart : ∃ u, tag.render ++ (inner ++ renderEndTag tag.name) = '<' :: u := ⟨_, rfl⟩
    have hall := ihRest.cons hrun hstart (ihInner.element span endName htag hopen)
    simpa only [List.append_assoc] using hall

/-- Parsing a written forest gives it back. -/
theorem parse_written (h : Written t nodes) : bareAll (parse t) = bareAll nodes := by
  obtain ⟨found, hfound, hread⟩ := h.allReadAs ⟨[], []⟩ 0 [] (Builder.textStarts_nil rfl) (by simp)
  rw [List.append_nil] at hread
  have hparse : parse t = found := by
    have hfold : (Token.lex t).foldl Builder.step ⟨[], []⟩ = ⟨found, []⟩ :=
      hread.trans (Builder.read_nil _ _)
    simp only [parse, hfold, Builder.finishAt, Option.toList_none, List.append_nil]
  rw [hparse, hfound]

end TemplateProjection.Markup
