import TemplateProjection.Proofs.Encoding
import TemplateProjection.Proofs.Placement
import TemplateProjection.Proofs.RespacedTags

/-!
Tokens tile the text, and the text with its end tags blanked out keeps every other byte in place.
A token that is no end tag is read again from the blanked text, so no end tag is left in it.
-/
namespace TemplateProjection

namespace Text

theorem byteLength_replicate_space (n : Nat) : byteLength (List.replicate n ' ') = n := by
  rw [← length_utf8, utf8_replicate_space, List.length_replicate]

theorem around?_append (needle rest : Text) :
    around? needle (needle ++ rest) = some ([], rest) := by
  have hafter := after?_append needle rest
  cases h : needle ++ rest with
  | nil =>
    obtain ⟨rfl, rfl⟩ := List.append_eq_nil_iff.1 h
    rfl
  | cons c t =>
    rw [h] at hafter
    simp only [around?, hafter]

/-- The first occurrence stays the first one whatever follows it. -/
theorem around?_reread {needle t before after : Text}
    (h : around? needle t = some (before, after)) (rest : Text) :
    around? needle (before ++ needle ++ rest) = some (before, rest) := by
  induction t generalizing before with
  | nil =>
    simp only [around?] at h
    split at h
    · cases h
      exact around?_append needle rest
    · cases h
  | cons c t ih =>
    simp only [around?] at h
    split at h
    · cases h
      exact around?_append needle rest
    · next hnone =>
      obtain ⟨⟨a, b⟩, hab, he⟩ := Option.map_eq_some_iff.1 h
      cases he
      -- an occurrence one character earlier would not reach what follows
      have hearlier : Text.after? needle (c :: (a ++ needle ++ rest)) = none := by
        rw [← Option.not_isSome_iff_eq_none, isSome_after?_iff] at hnone ⊢
        intro hstart
        have hshort : needle <+: c :: (a ++ needle) :=
          List.prefix_of_prefix_length_le hstart
            (List.prefix_append (c :: (a ++ needle)) rest) (by simp; omega)
        rw [← append_of_around? hab] at hnone
        exact hnone (hshort.trans (List.prefix_append (c :: (a ++ needle)) b))
      simp only [List.cons_append, around?, hearlier, ih hab, Option.map_some]

end Text

namespace Excerpt

variable {e : Excerpt} {source : Text}

theorem In.isSome_cut?_start (h : e.In source) : (source.cut? e.start).isSome := by
  obtain ⟨before, after, rfl, hstart⟩ := h
  rw [← hstart, List.append_assoc, Text.cut?_byteLength]
  rfl

theorem In.isSome_cut?_stop (h : e.In source) : (source.cut? e.stop).isSome := by
  obtain ⟨before, after, rfl, hstart⟩ := h
  rw [Excerpt.stop, ← hstart, ← Text.byteLength_append, Text.cut?_byteLength]
  rfl

end Excerpt

open Text

namespace Markup

variable {t head rest : Text} {c : Char}

/-! ### A token read again before another rest -/

theorem throughGt?_reread (h : throughGt? t = some (head, rest)) (u : Text) :
    throughGt? (head ++ u) = some (head, u) := by
  induction t generalizing head with
  | nil => cases h
  | cons c t ih =>
    simp only [throughGt?] at h
    split at h
    · next hc =>
      cases h
      simp [throughGt?, hc]
    · next hc =>
      obtain ⟨⟨a, b⟩, hab, he⟩ := Option.map_eq_some_iff.1 h
      cases he
      simp only [List.cons_append, throughGt?, if_neg hc, ih hab, Option.map_some]

/-- A tag that takes the whole text may only be read again before nothing. -/
theorem throughTagEnd_reread {quote : Option Char} {u : Text}
    (hu : (throughTagEnd quote t).2 = [] → u = []) :
    throughTagEnd quote ((throughTagEnd quote t).1 ++ u) = ((throughTagEnd quote t).1, u) := by
  induction t generalizing quote with
  | nil =>
    have hnil : throughTagEnd quote [] = ([], []) := by cases quote <;> rfl
    rw [hnil] at hu ⊢
    rw [hu rfl]
    exact hnil
  | cons c t ih =>
    cases quote with
    | some q =>
      simp only [throughTagEnd] at hu ⊢
      simp only [List.cons_append, throughTagEnd, ih hu]
    | none =>
      simp only [throughTagEnd] at hu ⊢
      split
      · next hc => simp [throughTagEnd, hc]
      · next hc =>
        simp only [if_neg hc] at hu
        simp only [List.cons_append, throughTagEnd, if_neg hc, ih hu]

namespace Lexeme

/-- The same token, before another rest. -/
def withRest (lexeme : Lexeme) (u : Text) : Lexeme := ⟨lexeme.kind, lexeme.text, u⟩

/-- Behind `<` and `lead`, the reader finds the same token whatever comes after that token, except
that a token which took the whole text stays the last one. -/
def Rereads (read : Text → Lexeme) (lead t : Text) : Prop :=
  ∀ u, ((read (lead ++ t)).rest = [] → u = []) →
    ∃ v, (read (lead ++ t)).text = '<' :: (lead ++ v) ∧
      read (lead ++ (v ++ u)) = (read (lead ++ t)).withRest u

theorem Rereads.congr {read read' : Text → Lexeme} {lead t : Text}
    (heq : ∀ s, read' (lead ++ s) = read (lead ++ s)) (h : Rereads read lead t) :
    Rereads read' lead t := by
  simpa only [Rereads, heq] using h

theorem throughGt?_append_left {lead : Text} (hlead : '>' ∉ lead) (t : Text) :
    throughGt? (lead ++ t) = (throughGt? t).map fun p => (lead ++ p.1, p.2) := by
  induction lead with
  | nil => simp
  | cons c lead ih =>
    obtain ⟨hc, hlead⟩ := not_or.1 (List.mem_cons.not.1 hlead)
    simp only [List.cons_append, throughGt?, if_neg (Ne.symm hc), ih hlead, Option.map_map]
    rfl

theorem closedByGt_rereads (kind : TokenKind) {lead : Text} (hlead : '>' ∉ lead) (t : Text) :
    Rereads (closedByGt kind) lead t := by
  intro u hu
  simp only [closedByGt, throughGt?_append_left hlead] at hu ⊢
  cases h : throughGt? t with
  | none =>
    simp only [h, Option.map_none] at hu ⊢
    refine ⟨t, rfl, ?_⟩
    rw [hu trivial, List.append_nil, h]
    rfl
  | some p =>
    obtain ⟨head, rest⟩ := p
    refine ⟨head, rfl, ?_⟩
    rw [throughGt?_reread h]
    rfl

theorem head?_throughTagEnd (quote : Option Char) (t : Text) :
    (throughTagEnd quote t).1.head? = t.head? := by
  cases t with
  | nil => cases quote <;> rfl
  | cons c t =>
    cases quote with
    | some q => rfl
    | none =>
      simp only [throughTagEnd]
      split <;> rfl

/-- A tag name ends where it ended before: at the first character behind it, if there is one. -/
theorem tagName_reread {isName : Char → Bool} {u : Text}
    (hu : (throughTagEnd none (t.dropWhile isName)).2 = [] → u = []) :
    ∀ x ∈ ((throughTagEnd none (t.dropWhile isName)).1 ++ u).head?, ¬ isName x := by
  intro x hx
  have hstop := List.head?_dropWhile_not isName t
  cases htail : t.dropWhile isName with
  | nil =>
    rw [htail] at hu hx
    simp [throughTagEnd, hu rfl] at hx
  | cons y tail =>
    rw [htail] at hx hstop
    rw [List.head?_append, head?_throughTagEnd] at hx
    cases hx
    simpa using hstop

theorem openTag_rereads (hc : c.isAlpha) (t : Text) : Rereads openTag [c] t := by
  intro u hu
  have hname : (!(isBlank c || c == '/' || c == '>')) = true := isAlpha_not_tagEnd hc
  simp only [openTag, List.cons_append, List.nil_append, List.takeWhile_cons, List.dropWhile_cons,
    hname, if_true] at hu ⊢
  generalize (fun c => !(isBlank c || c == '/' || c == '>')) = isName at hu ⊢
  refine ⟨t.takeWhile isName ++ (throughTagEnd none (t.dropWhile isName)).1, rfl, ?_⟩
  have hall : ∀ x ∈ t.takeWhile isName, isName x := fun _ => List.mem_takeWhile_imp
  rw [List.append_assoc, takeWhile_append_of_head hall (tagName_reread hu),
    dropWhile_append_of_head hall (tagName_reread hu), throughTagEnd_reread hu]
  rfl

theorem comment_rereads (t : Text) : Rereads ofMarkup "!--".toList t := by
  intro u hu
  simp only [ofMarkup, Text.after?_append, comment] at hu ⊢
  cases h : Text.around? "-->".toList t with
  | none =>
    rw [h] at hu
    refine ⟨t, rfl, ?_⟩
    rw [hu rfl, List.append_nil, h]
    rfl
  | some p =>
    obtain ⟨data, rest⟩ := p
    refine ⟨data ++ "-->".toList, rfl, ?_⟩
    rw [Text.around?_reread h]
    rfl

/-- A `<` before the text starts a tag, a comment or a declaration. -/
inductive Opens : Text → Prop
  | letter {c : Char} (t : Text) (hc : c.isAlpha) : Opens (c :: t)
  | slash (t : Text) : Opens ('/' :: t)
  | query (t : Text) : Opens ('?' :: t)
  | bang {c : Char} (t : Text) (hc : c.isAlpha) : Opens ('!' :: c :: t)
  | comment (t : Text) : Opens ('!' :: '-' :: '-' :: t)

theorem ofMarkup_bang (hc : c.isAlpha) (t : Text) :
    ofMarkup ('!' :: c :: t) = closedByGt .declaration ('!' :: c :: t) := by
  have hdash : c ≠ '-' := by
    rintro rfl
    exact absurd hc (by decide)
  have hafter : Text.after? "!--".toList ('!' :: c :: t) = none := if_neg hdash.symm
  simp only [ofMarkup, hafter, if_pos hc]

theorem ofMarkup_of_not_opens (h : ¬ Opens t) : ofMarkup t = ⟨.strayLt, ['<'], t⟩ := by
  simp only [ofMarkup]
  split
  · next data hdata => exact absurd (Text.append_of_after? hdata ▸ .comment data) h
  · split
    · next u _ => exact absurd (.slash u) h
    · next u _ => exact absurd (.query u) h
    · next u _ =>
      split
      · next hc => exact absurd (.bang u hc) h
      · rfl
    · next u _ _ _ _ =>
      split
      · next hc => exact absurd (.letter u hc) h
      · rfl
    · rfl

theorem Opens.rereads (h : Opens t) : ∃ lead s, t = lead ++ s ∧ Rereads ofMarkup lead s := by
  cases h with
  | letter s hc =>
    exact ⟨_, s, rfl, (openTag_rereads hc s).congr fun u => ofMarkup_of_isAlpha hc u⟩
  | slash s => exact ⟨['/'], s, rfl, (closedByGt_rereads .endTag (by decide) s).congr fun _ => rfl⟩
  | query s =>
    exact ⟨['?'], s, rfl, (closedByGt_rereads .declaration (by decide) s).congr fun _ => rfl⟩
  | @bang c s hc =>
    have hlead : '>' ∉ ['!', c] := by
      rintro (_ | ⟨_, _ | ⟨_, h⟩⟩)
      · exact absurd hc (by decide)
      · cases h
    exact ⟨['!', c], s, rfl, (closedByGt_rereads .declaration hlead s).congr (ofMarkup_bang hc)⟩
  | comment s => exact ⟨"!--".toList, s, rfl, comment_rereads s⟩

/-- The first token of a text that does not start with the mark. -/
theorem first_of_ne (hc : c ≠ '<') (t : Text) :
    first c t = ⟨.text, c :: t.takeWhile (· != '<'), t.dropWhile (· != '<')⟩ := if_neg hc

/-- What stands in place of the token after blanking. -/
def blank (lexeme : Lexeme) : Text := Token.blank ⟨⟨0, lexeme.text⟩, lexeme.kind⟩

end Lexeme

/-! ### The blanked text, token by token -/

namespace Token

theorem byteLength_blank (token : Token) : token.blank.byteLength = token.text.byteLength := by
  rw [blank]
  split
  · exact byteLength_replicate_space _
  · rfl

/-- The kinds and texts of the tokens do not depend on where the text starts. -/
theorem map_lexFrom {α : Type} (f : TokenKind → Text → α) (offset other : Nat) (t : Text) :
    ((lexFrom offset t).map fun token => f token.kind token.text) =
      (lexFrom other t).map fun token => f token.kind token.text := by
  fun_induction lexFrom offset t generalizing other with
  | case1 => simp [lexFrom]
  | case2 offset c t lexeme ih =>
    rw [lexFrom, List.map_cons, List.map_cons, ih]

theorem flatMap_text_lexFrom (offset : Nat) (t : Text) :
    ((lexFrom offset t).flatMap fun token => token.text) = t := by
  fun_induction lexFrom offset t with
  | case1 => rfl
  | case2 offset c t lexeme ih => rw [List.flatMap_cons, ih, Lexeme.first_append]

theorem byteLength_flatMap_blank (tokens : List Token) :
    Text.byteLength (tokens.flatMap blank) =
      Text.byteLength (tokens.flatMap fun token => token.text) := by
  induction tokens with
  | nil => rfl
  | cons token tokens ih =>
    simp only [List.flatMap_cons, byteLength_append, byteLength_blank, ih]

end Token

theorem blankEndTags_cons (c : Char) (t : Text) :
    blankEndTags (c :: t) =
      (Lexeme.first c t).blank ++ blankEndTags (Lexeme.first c t).rest := by
  have hshift := Token.map_lexFrom (fun kind text => Token.blank ⟨⟨0, text⟩, kind⟩)
    (0 + (Lexeme.first c t).text.byteLength) 0 (Lexeme.first c t).rest
  rw [blankEndTags, Token.lex, Token.lexFrom, List.flatMap_cons]
  exact congrArg (_ ++ List.flatten ·) hshift

theorem byteLength_blankEndTags (t : Text) : (blankEndTags t).byteLength = t.byteLength := by
  rw [blankEndTags, Token.byteLength_flatMap_blank, Token.lex, Token.flatMap_text_lexFrom]

/-- A run of plain characters in front is kept. -/
theorem blankEndTags_run (t : Text) :
    blankEndTags t = t.takeWhile (· != '<') ++ blankEndTags (t.dropWhile (· != '<')) := by
  cases t with
  | nil => simp
  | cons c t =>
    by_cases hc : c = '<'
    · simp [hc]
    · simp [blankEndTags_cons, Lexeme.first_of_ne hc, hc, Lexeme.blank, Token.blank]

theorem blankEndTags_cons_of_ne (hc : c ≠ '<') (t : Text) :
    blankEndTags (c :: t) = c :: blankEndTags t := by
  rw [blankEndTags_run (c :: t), blankEndTags_run t]
  simp [hc]

/-- The blanked text starts as the text does, or with a space. -/
theorem blankEndTags_cons_head (c : Char) (t : Text) :
    ∃ d u, blankEndTags (c :: t) = d :: u ∧ (d = c ∨ d = ' ') := by
  have happ := Lexeme.first_append c t
  obtain ⟨d, v, htext⟩ := List.exists_cons_of_ne_nil (Lexeme.first_text_ne_nil c t)
  rw [htext, List.cons_append, List.cons.injEq] at happ
  rw [blankEndTags_cons, Lexeme.blank, Token.blank, htext]
  split
  · obtain ⟨n, hn⟩ := Nat.exists_eq_add_one.2 d.utf8Size_pos
    rw [byteLength_cons, hn, Nat.succ_add, List.replicate_succ]
    exact ⟨' ', _, rfl, .inr rfl⟩
  · exact ⟨d, _, rfl, .inl happ.1⟩

/-- A character that is neither the mark nor a space starts the blanked text only if it starts the
text. -/
theorem of_blankEndTags_eq_cons {u : Text} (hlt : c ≠ '<') (hspace : c ≠ ' ')
    (h : blankEndTags t = c :: u) : ∃ s, t = c :: s ∧ blankEndTags s = u := by
  cases t with
  | nil => simp [blankEndTags, Token.lex, Token.lexFrom] at h
  | cons d t =>
    by_cases hd : d = '<'
    · obtain ⟨e, v, heq, he⟩ := blankEndTags_cons_head d t
      rw [h, List.cons.injEq] at heq
      grind
    · rw [blankEndTags_cons_of_ne hd, List.cons.injEq] at h
      obtain ⟨rfl, rfl⟩ := h
      exact ⟨t, rfl, rfl⟩

theorem Lexeme.text_of_blank_eq_append {lexeme : Lexeme} {before after : Text} (hspace : c ≠ ' ')
    (h : lexeme.blank = before ++ c :: after) : lexeme.text = before ++ c :: after := by
  simp only [blank, Token.blank] at h
  split at h
  · have hmem : c ∈ List.replicate lexeme.text.byteLength ' ' := by
      rw [h]
      simp
    exact absurd (List.eq_of_mem_replicate hmem) hspace
  · exact h

/-- A character that is left in the blanked text stands in the text at the same offset. -/
theorem of_blankEndTags_eq_append {before after : Text} (hspace : c ≠ ' ')
    (h : blankEndTags t = before ++ c :: after) :
    ∃ before' after' : Text, t = before' ++ c :: after' ∧
      before'.byteLength = before.byteLength := by
  revert before
  induction 0, t using Token.lexFrom.induct with
  | case1 => simp [blankEndTags, Token.lex, Token.lexFrom]
  | case2 offset d t lexeme =>
    rename_i ih
    intro before h
    have happ : lexeme.text ++ lexeme.rest = d :: t := Lexeme.first_append d t
    rw [blankEndTags_cons] at h
    have hlen : lexeme.blank.byteLength = lexeme.text.byteLength := Token.byteLength_blank _
    -- the character stands behind the first token, or in it
    have hrest : ∀ lead : Text, blankEndTags lexeme.rest = lead ++ c :: after →
        before = lexeme.blank ++ lead → ∃ before' after' : Text,
          d :: t = before' ++ c :: after' ∧ before'.byteLength = before.byteLength := by
      rintro lead hlead rfl
      obtain ⟨before', after', heq, hbytes⟩ := ih hlead
      refine ⟨lexeme.text ++ before', after', ?_, ?_⟩
      · rw [← happ, heq, List.append_assoc]
      · rw [byteLength_append, byteLength_append, hbytes, hlen]
    rcases List.append_eq_append_iff.1 h with ⟨lead, hbefore, hlead⟩ | ⟨tail, hblank, htail⟩
    · exact hrest lead hlead hbefore
    · cases tail with
      | nil => exact hrest [] htail.symm (by rw [hblank, List.append_nil, List.append_nil])
      | cons x tail =>
        obtain ⟨rfl, -⟩ := List.cons.inj htail
        refine ⟨before, tail ++ lexeme.rest, ?_, rfl⟩
        rw [← happ, Lexeme.text_of_blank_eq_append hspace hblank, List.append_assoc,
          List.cons_append]

theorem Lexeme.Opens.of_blankEndTags (h : Opens (blankEndTags t)) : Opens t := by
  have halpha : ∀ {c : Char}, c.isAlpha → c ≠ '<' ∧ c ≠ ' ' := by
    intro c hc
    constructor <;> (rintro rfl; exact absurd hc (by decide))
  generalize hu : blankEndTags t = u at h
  cases h with
  | letter u hc =>
    obtain ⟨s, rfl, -⟩ := of_blankEndTags_eq_cons (halpha hc).1 (halpha hc).2 hu
    exact .letter s hc
  | slash u =>
    obtain ⟨s, rfl, -⟩ := of_blankEndTags_eq_cons (by decide) (by decide) hu
    exact .slash s
  | query u =>
    obtain ⟨s, rfl, -⟩ := of_blankEndTags_eq_cons (by decide) (by decide) hu
    exact .query s
  | bang u hc =>
    obtain ⟨s, rfl, hs⟩ := of_blankEndTags_eq_cons (by decide) (by decide) hu
    obtain ⟨s', rfl, -⟩ := of_blankEndTags_eq_cons (halpha hc).1 (halpha hc).2 hs
    exact .bang s' hc
  | comment u =>
    obtain ⟨s, rfl, hs⟩ := of_blankEndTags_eq_cons (by decide) (by decide) hu
    obtain ⟨s', rfl, hs'⟩ := of_blankEndTags_eq_cons (by decide) (by decide) hs
    obtain ⟨data, rfl, -⟩ := of_blankEndTags_eq_cons (by decide) (by decide) hs'
    exact .comment data

/-! ### No end tag is left -/

/-- No token is an end tag. -/
def NoEndTag (t : Text) : Prop := ∀ token ∈ Token.lex t, token.kind ≠ .endTag

theorem noEndTag_cons : NoEndTag (c :: t) ↔
    (Lexeme.first c t).kind ≠ .endTag ∧ NoEndTag (Lexeme.first c t).rest := by
  have hshift := Token.map_lexFrom (fun kind _ => kind)
    (0 + (Lexeme.first c t).text.byteLength) 0 (Lexeme.first c t).rest
  have hkinds : ∀ tokens : List Token, (∀ token ∈ tokens, token.kind ≠ .endTag) ↔
      ∀ kind ∈ tokens.map (fun token => token.kind), kind ≠ .endTag := by simp
  rw [NoEndTag, Token.lex, Token.lexFrom, List.forall_mem_cons, hkinds, hshift, ← hkinds]
  rfl

theorem NoEndTag.dropWhile (h : NoEndTag t) : NoEndTag (t.dropWhile (· != '<')) := by
  cases t with
  | nil => exact h
  | cons c t =>
    by_cases hc : c = '<'
    · simpa [hc] using h
    · have hrest := (noEndTag_cons.1 h).2
      rw [Lexeme.first_of_ne hc] at hrest
      simpa [hc] using hrest

theorem NoEndTag.append_run {w : Text} (hw : '<' ∉ w) (h : NoEndTag t) : NoEndTag (w ++ t) := by
  cases w with
  | nil => exact h
  | cons d w =>
    obtain ⟨hd, hw⟩ := not_or.1 (List.mem_cons.not.1 hw)
    have hall : ∀ c ∈ w, (c != '<') = true := by
      intro c hc
      exact bne_iff_ne.2 (ne_of_mem_of_not_mem hc hw)
    rw [List.cons_append, noEndTag_cons, Lexeme.first_of_ne (Ne.symm hd),
      List.dropWhile_append_of_pos hall]
    exact ⟨by simp, h.dropWhile⟩

/-- A construct other than an end tag is read again before the blanked rest. -/
theorem NoEndTag.ofMarkup (hkind : (Lexeme.ofMarkup t).kind ≠ .endTag)
    (h : NoEndTag (blankEndTags (Lexeme.ofMarkup t).rest)) :
    NoEndTag ((Lexeme.ofMarkup t).text ++ blankEndTags (Lexeme.ofMarkup t).rest) := by
  by_cases hopens : Lexeme.Opens t
  · obtain ⟨lead, s, rfl, hrereads⟩ := hopens.rereads
    obtain ⟨v, htext, hread⟩ := hrereads (blankEndTags (Lexeme.ofMarkup (lead ++ s)).rest)
      fun hnil => by simp [hnil, blankEndTags, Token.lex, Token.lexFrom]
    rw [htext, List.cons_append, List.append_assoc, noEndTag_cons, Lexeme.first, if_pos rfl, hread]
    exact ⟨hkind, h⟩
  · have hstray : ¬ Lexeme.Opens (blankEndTags t) := fun h => hopens h.of_blankEndTags
    rw [Lexeme.ofMarkup_of_not_opens hopens] at h ⊢
    rw [List.singleton_append, noEndTag_cons, Lexeme.first, if_pos rfl,
      Lexeme.ofMarkup_of_not_opens hstray]
    exact ⟨by simp, h⟩

theorem noEndTag_blankEndTags (t : Text) : NoEndTag (blankEndTags t) := by
  -- the recursion of the lexer: what follows the first token is blanked already
  induction 0, t using Token.lexFrom.induct with
  | case1 => simp [NoEndTag, blankEndTags, Token.lex, Token.lexFrom]
  | case2 offset c t lexeme ih =>
    rw [blankEndTags_cons, Lexeme.blank, Token.blank]
    split
    · refine ih.append_run fun hlt => ?_
      exact absurd (List.eq_of_mem_replicate hlt) (by decide)
    · by_cases hc : c = '<'
      · subst hc
        exact NoEndTag.ofMarkup ‹_› ih
      · refine ih.append_run ?_
        have hrun : '<' ∉ t.takeWhile (· != '<') := fun hlt => by
          simpa using List.mem_takeWhile_imp hlt
        simpa [Lexeme.first_of_ne hc, Ne.symm hc] using hrun

theorem NoEndTag.blankEndTags_eq (h : NoEndTag t) : blankEndTags t = t := by
  have hblank : (Token.lex t).map Token.blank = (Token.lex t).map fun token => token.text :=
    List.map_congr_left fun token hmem => if_neg (h token hmem)
  calc blankEndTags t
      = ((Token.lex t).map Token.blank).flatten := rfl
    _ = ((Token.lex t).map fun token => token.text).flatten := by rw [hblank]
    _ = t := Token.flatMap_text_lexFrom 0 t

/-! ### Byte by byte -/

/-- The byte at the offset belongs to an end tag. -/
def Token.BlanksAt (tokens : List Token) (i : Nat) : Prop :=
  ∃ token ∈ tokens, token.kind = .endTag ∧ token.start ≤ i ∧ i < token.stop

instance (tokens : List Token) (i : Nat) : Decidable (Token.BlanksAt tokens i) :=
  inferInstanceAs (Decidable (∃ token ∈ tokens, _))

theorem Token.Adjacent.start_le {start stop : Nat} {tokens : List Token}
    (h : Adjacent start tokens stop) : ∀ token ∈ tokens, start ≤ token.start := by
  induction tokens generalizing start with
  | nil => simp
  | cons token tokens ih =>
    obtain ⟨rfl, hne, hrest⟩ := h
    have hlt := start_lt_stop hne
    refine List.forall_mem_cons.2 ⟨Nat.le_refl _, fun later hmem => ?_⟩
    exact Nat.le_trans (Nat.le_of_lt hlt) (ih hrest later hmem)

theorem Token.getElem?_utf8_blank (token : Token) {i : Nat} (hi : i < token.text.byteLength) :
    token.blank.utf8[i]? = if token.kind = .endTag then some 0x20 else token.text.utf8[i]? := by
  rw [blank]
  split
  · rw [utf8_replicate_space, List.getElem?_replicate, if_pos hi]
  · rfl

section BlanksAt

variable {token : Token} {tokens : List Token} {i : Nat}

theorem Token.blanksAt_head (hlater : ∀ later ∈ tokens, token.stop ≤ later.start)
    (hstart : token.start ≤ i) (hstop : i < token.stop) :
    BlanksAt (token :: tokens) i ↔ token.kind = .endTag := by
  constructor
  · rintro ⟨found, hmem, hkind, hle, -⟩
    rcases List.mem_cons.1 hmem with rfl | hmem
    · exact hkind
    · have := hlater found hmem
      omega
  · exact fun hkind => ⟨token, List.mem_cons_self, hkind, hstart, hstop⟩

theorem Token.blanksAt_tail (hstop : token.stop ≤ i) :
    BlanksAt (token :: tokens) i ↔ BlanksAt tokens i := by
  constructor
  · rintro ⟨found, hmem, hkind, hle, hlt⟩
    rcases List.mem_cons.1 hmem with rfl | hmem
    · omega
    · exact ⟨found, hmem, hkind, hle, hlt⟩
  · rintro ⟨found, hmem, hfound⟩
    exact ⟨found, List.mem_cons_of_mem _ hmem, hfound⟩

end BlanksAt

/-- Blanking changes the bytes of end tags, and nothing else. -/
theorem Token.Adjacent.getElem?_utf8 {start stop : Nat} {tokens : List Token}
    (h : Adjacent start tokens stop) (i : Nat) :
    (Text.utf8 (tokens.flatMap blank))[i]? =
      if BlanksAt tokens (start + i) then some 0x20
      else (Text.utf8 (tokens.flatMap fun token => token.text))[i]? := by
  induction tokens generalizing start i with
  | nil => simp [BlanksAt]
  | cons token tokens ih =>
    obtain ⟨rfl, hne, hrest⟩ := h
    simp only [List.flatMap_cons, utf8_append, List.getElem?_append, length_utf8,
      byteLength_blank]
    split
    · next hi =>
      have hstop : token.start + i < token.stop := Nat.add_lt_add_left hi _
      simp only [blanksAt_head hrest.start_le (Nat.le_add_right _ i) hstop]
      exact getElem?_utf8_blank token hi
    · next hi =>
      have hat : token.start + i = token.stop + (i - token.text.byteLength) := by
        simp only [Excerpt.stop]
        omega
      rw [hat]
      simp only [blanksAt_tail (Nat.le_add_right token.stop _)]
      exact ih hrest _

/-- The tokens are not empty, stand one behind another from the start of the text to its end, and
each is the part of the text between two character boundaries. The text with its end tags blanked
out has a space for each byte of an end tag and every other byte in its place; it has no end tag,
and blanking it again changes nothing. -/
theorem tokens_tile_and_blanking_safe (t : Text) :
    Token.Adjacent 0 (Token.lex t) t.byteLength ∧
      (∀ token ∈ Token.lex t, (t.cut? token.start).isSome ∧ (t.cut? token.stop).isSome ∧
        t.slice? token.span = some token.text) ∧
      (blankEndTags t).byteLength = t.byteLength ∧
      (∀ i, (blankEndTags t).utf8[i]? =
        if Token.BlanksAt (Token.lex t) i then some 0x20 else t.utf8[i]?) ∧
      (∀ token ∈ Token.lex (blankEndTags t), token.kind ≠ .endTag) ∧
      blankEndTags (blankEndTags t) = blankEndTags t := by
  have htile := Token.lexFrom_adjacent 0 t
  rw [Nat.zero_add] at htile
  refine ⟨htile, fun token hmem => ?_, byteLength_blankEndTags t, fun i => ?_,
    noEndTag_blankEndTags t, (noEndTag_blankEndTags t).blankEndTags_eq⟩
  · have hin := Token.lex_in t token hmem
    exact ⟨hin.isSome_cut?_start, hin.isSome_cut?_stop, Excerpt.in_iff_slice?.1 hin⟩
  · have hbytes := htile.getElem?_utf8 i
    rw [Nat.zero_add, Token.flatMap_text_lexFrom] at hbytes
    exact hbytes

end Markup

end TemplateProjection
