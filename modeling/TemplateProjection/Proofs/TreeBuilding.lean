import TemplateProjection.Markup.Tree
import TemplateProjection.Proofs.Excerpt

/-! How a tree is built: tokens stand one behind another, open elements are closed one by one. -/
namespace TemplateProjection.Markup

namespace Token

/-- The tokens stand one behind another between two offsets, and none is empty. -/
def Adjacent : Nat → List Token → Nat → Prop
  | start, [], stop => start = stop
  | start, token :: tokens, stop =>
    token.start = start ∧ token.text ≠ [] ∧ Adjacent token.stop tokens stop

theorem lexFrom_adjacent (offset : Nat) (t : Text) :
    Adjacent offset (lexFrom offset t) (offset + t.byteLength) := by
  fun_induction lexFrom offset t with
  | case1 => rfl
  | case2 offset c t lexeme ih =>
    refine ⟨rfl, Lexeme.first_text_ne_nil c t, ?_⟩
    have hlen := congrArg Text.byteLength (Lexeme.first_append c t)
    rw [Text.byteLength_append] at hlen
    rwa [Nat.add_assoc, hlen] at ih

theorem text_ne_nil {offset : Nat} {t : Text} : ∀ token ∈ lexFrom offset t, token.text ≠ [] := by
  fun_induction lexFrom offset t with
  | case1 => simp
  | case2 offset c t lexeme ih =>
    exact List.forall_mem_cons.2 ⟨Lexeme.first_text_ne_nil c t, ih⟩

theorem start_lt_stop {token : Token} (h : token.text ≠ []) : token.start < token.stop := by
  obtain ⟨c, t, ht⟩ := List.exists_cons_of_ne_nil h
  have hpos := c.utf8Size_pos
  simp only [Excerpt.stop, ht, Text.byteLength_cons]
  omega

theorem Adjacent.le {start stop : Nat} {tokens : List Token} (h : Adjacent start tokens stop) :
    start ≤ stop := by
  induction tokens generalizing start with
  | nil => exact Nat.le_of_eq h
  | cons token tokens ih =>
    obtain ⟨rfl, hne, hrest⟩ := h
    exact Nat.le_trans (Nat.le_of_lt (start_lt_stop hne)) (ih hrest)

end Token

def Node.isText : Node → Bool
  | .text _ _ => true
  | _ => false

namespace Builder

variable {b : Builder} {node : Node} {roots : List Node}

/-- The list of siblings that is being read. -/
def siblings : Builder → List Node
  | ⟨roots, []⟩ => roots
  | ⟨_, e :: _⟩ => e.children

@[simp]
theorem siblings_modify (b : Builder) (f : List Node → List Node) :
    (b.modify f).siblings = f b.siblings := by
  obtain ⟨roots, _ | ⟨e, pending⟩⟩ := b <;> rfl

theorem modify_modify (b : Builder) (f g : List Node → List Node) :
    (b.modify f).modify g = b.modify (g ∘ f) := by
  obtain ⟨roots, _ | ⟨e, pending⟩⟩ := b <;> rfl

theorem modify_congr {f g : List Node → List Node} (h : f b.siblings = g b.siblings) :
    b.modify f = b.modify g := by
  obtain ⟨roots, _ | ⟨e, pending⟩⟩ := b
  · exact congrArg (Builder.mk · []) h
  · exact congrArg (fun nodes => Builder.mk roots (⟨e.tag, nodes⟩ :: pending)) h

theorem modify_append_nil (b : Builder) : b.modify (· ++ []) = b := by
  obtain ⟨roots, _ | ⟨e, pending⟩⟩ := b <;> simp [modify]

theorem modify_append_append (b : Builder) (nodes nodes' : List Node) :
    (b.modify (· ++ nodes)).modify (· ++ nodes') = b.modify (· ++ (nodes ++ nodes')) := by
  rw [modify_modify]
  exact modify_congr (List.append_assoc _ _ _)

/-- Text that comes next starts a node of its own. -/
def TextStarts (b : Builder) : Prop := ∀ node ∈ b.siblings.getLast?, node.isText = false

theorem textStarts_push (b : Builder) (h : node.isText = false) : (b.push node).TextStarts := by
  intro last hlast
  rw [push, siblings_modify, List.getLast?_concat] at hlast
  cases hlast
  exact h

theorem textStarts_nil {b : Builder} (h : b.siblings = []) : b.TextStarts := by
  intro last hlast
  rw [h] at hlast
  cases hlast

/-- What closing the innermost element keeps holds when the element that an end tag names is the
innermost one. -/
theorem closeThrough_cases {P : Builder → Prop} {name : Text} {tag : Span}
    (hinner : ∀ e pending, P ⟨roots, e :: pending⟩ → e.tag.name.eqIgnoringCase name = false →
      P ((Builder.mk roots pending).push (e.close tag.start none))) :
    ∀ {pending : List OpenElement} {inner : Option Node},
      P ((Builder.mk roots pending).modify (· ++ inner.toList)) →
      pending.any (·.tag.name.eqIgnoringCase name) →
      ∃ e outer, P ⟨roots, e :: outer⟩ ∧ e.tag.name.eqIgnoringCase name ∧
        closeThrough name tag roots inner pending =
          (Builder.mk roots outer).push
            (e.close tag.stop (some ⟨tag.start + 2, name.byteLength⟩))
  | [], _, _, hany => by cases hany
  | e :: pending, inner, h, hany => by
    simp only [closeThrough]
    split
    · next hname => exact ⟨_, pending, h, hname, rfl⟩
    · next hname =>
      have hother : e.tag.name.eqIgnoringCase name = false := by simpa using hname
      have hrest : pending.any (·.tag.name.eqIgnoringCase name) := by
        simpa [List.any_cons, hother] using hany
      exact closeThrough_cases hinner (hinner _ pending h hother) hrest

/-- An end tag is ignored or closes the innermost element of its name, after those inside it. -/
theorem close_cases {P : Builder → Prop} {tag : Excerpt} (h : P b)
    (hinner : ∀ roots e pending, P ⟨roots, e :: pending⟩ →
      e.tag.name.eqIgnoringCase (endTagName tag.text) = false →
      P ((Builder.mk roots pending).push (e.close tag.start none))) :
    b.close tag = b ∨
      ∃ e outer, P ⟨b.roots, e :: outer⟩ ∧ e.tag.name.eqIgnoringCase (endTagName tag.text) ∧
        b.close tag = (Builder.mk b.roots outer).push
          (e.close tag.stop (some ⟨tag.start + 2, (endTagName tag.text).byteLength⟩)) := by
  simp only [close]
  split
  · next hany =>
    refine Or.inr (closeThrough_cases (hinner b.roots) ?_ hany)
    exact (modify_append_nil b).symm ▸ h
  · exact Or.inl rfl

/-- What closing the innermost element keeps holds when everything is closed. -/
theorem finishAt_induction {P : Builder → Prop} {stop : Nat}
    (hclose : ∀ e pending, P ⟨roots, e :: pending⟩ →
      P ((Builder.mk roots pending).push (e.close stop none))) :
    ∀ {pending : List OpenElement} {inner : Option Node},
      P ((Builder.mk roots pending).modify (· ++ inner.toList)) →
      P ⟨finishAt stop roots inner pending, []⟩
  | [], _, h => h
  | e :: pending, inner, h => by
    simp only [finishAt]
    exact finishAt_induction hclose (hclose _ pending h)

end Builder

/-- What closing the innermost element at the end of the text keeps holds of the whole tree. -/
theorem parse_induction {P : Builder → Prop} {t : Text}
    (h : P ((Token.lex t).foldl Builder.step ⟨[], []⟩))
    (hclose : ∀ roots e pending, P ⟨roots, e :: pending⟩ →
      P ((Builder.mk roots pending).push (e.close t.byteLength none))) : P ⟨parse t, []⟩ := by
  refine Builder.finishAt_induction (hclose _) ?_
  exact (Builder.modify_append_nil _).symm ▸ h

/-- The tag is an opening tag among the tokens of the text. -/
def OpenTag.StandsIn (t : Text) (tag : OpenTag) : Prop :=
  ∃ token ∈ Token.lex t, token.kind = .openTag ∧ tag = .ofExcerpt token.toExcerpt

theorem mem_appendText {nodes : List Node} {e : Excerpt} {node : Node}
    (h : node ∈ appendText nodes e) : node ∈ nodes ∨ ∃ t span, node = .text t span := by
  simp only [appendText] at h
  split at h
  · split at h
    · rcases List.mem_append.1 h with h | h
      · exact Or.inl (List.dropLast_subset _ h)
      · exact Or.inr ⟨_, _, List.mem_singleton.1 h⟩
    · rcases List.mem_append.1 h with h | h
      · exact Or.inl h
      · exact Or.inr ⟨_, _, List.mem_singleton.1 h⟩
  · rcases List.mem_append.1 h with h | h
    · exact Or.inl h
    · exact Or.inr ⟨_, _, List.mem_singleton.1 h⟩

namespace Builder

variable {P : Node → Prop} {b : Builder} {t : Text}

/-- Every node read so far has the property, and every open element has a tag of the text. -/
def All (t : Text) (P : Node → Prop) (b : Builder) : Prop :=
  (∀ node ∈ b.roots, P node) ∧
    ∀ e ∈ b.pending, e.tag.StandsIn t ∧ ∀ node ∈ e.children, P node

theorem All.modify {f : List Node → List Node} (h : b.All t P)
    (hf : ∀ nodes, (∀ node ∈ nodes, P node) → ∀ node ∈ f nodes, P node) :
    (b.modify f).All t P := by
  obtain ⟨roots, _ | ⟨e, pending⟩⟩ := b
  · exact ⟨hf roots h.1, by simp [Builder.modify]⟩
  · obtain ⟨⟨htag, he⟩, hpending⟩ := List.forall_mem_cons.1 h.2
    exact ⟨h.1, List.forall_mem_cons.2 ⟨⟨htag, hf e.children he⟩, hpending⟩⟩

theorem All.push {node : Node} (h : b.All t P) (hnode : P node) : (b.push node).All t P :=
  h.modify fun _ hnodes => List.forall_mem_append.2 ⟨hnodes, by simpa using hnode⟩

/-- A property that an element has if its children have it stays when elements are closed. -/
theorem All.closeInnermost {roots : List Node} {e : OpenElement} {pending : List OpenElement}
    (helement : ∀ tag children span endName, tag.StandsIn t → (∀ node ∈ children, P node) →
      P (.element tag children span endName))
    (h : (Builder.mk roots (e :: pending)).All t P) (stop : Nat) (endName : Option Span) :
    ((Builder.mk roots pending).push (e.close stop endName)).All t P := by
  obtain ⟨⟨htag, he⟩, hpending⟩ := List.forall_mem_cons.1 h.2
  exact All.push ⟨h.1, hpending⟩ (helement _ _ _ _ htag he)

theorem All.step {token : Token} (htoken : token ∈ Token.lex t)
    (htext : ∀ text span, P (.text text span))
    (hcomment : token.kind = .comment → P (.comment (commentData token.text) token.span))
    (hdeclaration : token.kind = .declaration → P (.declaration token.text token.span))
    (helement : ∀ tag children span endName, tag.StandsIn t → (∀ node ∈ children, P node) →
      P (.element tag children span endName)) (h : b.All t P) : (b.step token).All t P := by
  have happend : ∀ nodes, (∀ node ∈ nodes, P node) →
      ∀ node ∈ appendText nodes token.toExcerpt, P node := by
    intro nodes hnodes node hnode
    rcases mem_appendText hnode with hnode | ⟨t, span, rfl⟩
    · exact hnodes node hnode
    · exact htext t span
  cases hkind : token.kind with
  | text => simpa only [Builder.step, hkind] using h.modify happend
  | strayLt => simpa only [Builder.step, hkind] using h.modify happend
  | comment => simpa only [Builder.step, hkind] using h.push (hcomment hkind)
  | declaration => simpa only [Builder.step, hkind] using h.push (hdeclaration hkind)
  | openTag =>
    have htag : (OpenTag.ofExcerpt token.toExcerpt).StandsIn t := ⟨token, htoken, hkind, rfl⟩
    simp only [Builder.step, hkind, Builder.openTag]
    split
    · exact h.push (helement _ _ _ _ htag (by simp))
    · exact ⟨h.1, List.forall_mem_cons.2 ⟨⟨htag, by simp⟩, h.2⟩⟩
  | endTag =>
    simp only [Builder.step, hkind]
    obtain hsame | ⟨e, outer, hall, -, hclosed⟩ := @close_cases b (All t P) token.toExcerpt h
      fun _ _ _ h _ => h.closeInnermost helement _ _
    · rwa [hsame]
    · rw [hclosed]
      exact hall.closeInnermost helement _ _

end Builder

/-- A property that holds of every text, of the comments and declarations of a text, and of an
element with a tag of the text if it holds of its children, holds of every node of the tree. -/
theorem parse_forall {P : Node → Prop} {t : Text} (htext : ∀ text span, P (.text text span))
    (hcomment : ∀ token ∈ Token.lex t, token.kind = .comment →
      P (.comment (commentData token.text) token.span))
    (hdeclaration : ∀ token ∈ Token.lex t, token.kind = .declaration →
      P (.declaration token.text token.span))
    (helement : ∀ tag children span endName, tag.StandsIn t → (∀ node ∈ children, P node) →
      P (.element tag children span endName)) : ∀ node ∈ parse t, P node := by
  have hread : ∀ tokens : List Token, (∀ token ∈ tokens, token ∈ Token.lex t) →
      ∀ b : Builder, b.All t P → (tokens.foldl Builder.step b).All t P := by
    intro tokens htokens
    induction tokens with
    | nil => exact fun b h => h
    | cons token tokens ih =>
      obtain ⟨htoken, htokens⟩ := List.forall_mem_cons.1 htokens
      exact fun b h => ih htokens _ (h.step htoken htext (hcomment token htoken)
        (hdeclaration token htoken) helement)
  have hnone : (Builder.mk [] []).All t P := ⟨by simp, by simp⟩
  exact (parse_induction (hread _ (fun _ h => h) _ hnone)
    fun _ _ _ h => h.closeInnermost helement _ _).1

end TemplateProjection.Markup
