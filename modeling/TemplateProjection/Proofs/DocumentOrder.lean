import Mathlib.Data.List.SplitBy
import Mathlib.Data.List.TakeWhile
import TemplateProjection.Proofs.TreeBuilding

/-!
A tree lists the constructs of its text in their order: each opening tag, comment, declaration and
run of text once.
-/
namespace TemplateProjection.Markup

variable {tokens run rest : List Token} {token : Token} {start stop offset : Nat}

namespace Token

/-- A stray `<` is text, too. -/
def isText (token : Token) : Bool := token.kind = .text || token.kind = .strayLt

/-- The span of a run of tokens. End tags have no place in a tree. -/
def runSpan? : List Token → Option Span
  | [] => none
  | token :: run =>
    if token.kind = .endTag then none
    else some (.between token.start (run.getLast?.getD token).stop)

/-- The spans of the tokens without the end tags. Tokens of text that follow each other have one
span. -/
def constructs (tokens : List Token) : List Span :=
  (tokens.splitBy fun a b => a.isText && b.isText).filterMap runSpan?

theorem constructs_nil : constructs [] = [] := rfl

theorem constructs_append
    (h : ∀ a ∈ run.getLast?, ∀ b ∈ rest.head?, (a.isText && b.isText) = false) :
    constructs (run ++ rest) = constructs run ++ constructs rest := by
  rw [constructs, List.splitBy_append h, List.filterMap_append]
  rfl

theorem constructs_of_isChain (hne : run ≠ [])
    (h : run.IsChain fun a b => (a.isText && b.isText) = true) :
    constructs run = (runSpan? run).toList := by
  rw [constructs, List.splitBy_of_isChain hne h, List.filterMap_eq_flatMap_toList,
    List.flatMap_singleton]

/-- A run of text that no more text follows has one span. -/
theorem constructs_run (htext : ∀ token ∈ run, token.isText) (hne : run ≠ [])
    (hrest : ∀ token ∈ rest.head?, token.isText = false) :
    constructs (run ++ rest) = (runSpan? run).toList ++ constructs rest := by
  have hchain : run.IsChain fun a b => (a.isText && b.isText) = true := by
    refine (List.pairwise_of_forall_mem_list fun a ha b hb => ?_).isChain
    rw [htext a ha, htext b hb]
    rfl
  have hsplit : ∀ a ∈ run.getLast?, ∀ b ∈ rest.head?, (a.isText && b.isText) = false := by
    intro a _ b hb
    rw [hrest b hb, Bool.and_false]
  rw [constructs_append hsplit, constructs_of_isChain hne hchain]

theorem constructs_cons (h : token.isText = false) (tokens : List Token) :
    constructs (token :: tokens) = (runSpan? [token]).toList ++ constructs tokens := by
  have hsplit : ∀ a ∈ [token].getLast?, ∀ b ∈ tokens.head?, (a.isText && b.isText) = false := by
    intro a ha b _
    cases ha
    exact (Bool.and_eq_false_iff).2 (Or.inl h)
  rw [← List.singleton_append, constructs_append hsplit,
    constructs_of_isChain (by simp) (.singleton token)]

theorem exists_run (tokens : List Token) :
    ∃ run rest, tokens = run ++ rest ∧ (∀ token ∈ run, token.isText) ∧
      ∀ token ∈ rest.head?, token.isText = false := by
  refine ⟨tokens.takeWhile isText, tokens.dropWhile isText,
    List.takeWhile_append_dropWhile.symm, fun token h => List.mem_takeWhile_imp h, ?_⟩
  intro token h
  have hnot := List.head?_dropWhile_not isText tokens
  rw [h] at hnot
  simpa using hnot

theorem Adjacent.of_append (h : Adjacent start (run ++ rest) stop) :
    ∃ mid, Adjacent start run mid ∧ Adjacent mid rest stop := by
  induction run generalizing start with
  | nil => exact ⟨start, rfl, h⟩
  | cons token run ih =>
    obtain ⟨hstart, hne, hrest⟩ := h
    obtain ⟨mid, hrun, hafter⟩ := ih hrest
    exact ⟨mid, ⟨hstart, hne, hrun⟩, hafter⟩

theorem Adjacent.stop_eq (h : Adjacent start (token :: run) stop) :
    (run.getLast?.getD token).stop = stop := by
  induction run generalizing start token with
  | nil => exact h.2.2
  | cons next run ih =>
    have hlast : (next :: run).getLast?.getD token = run.getLast?.getD next := by
      rw [List.getLast?_cons, Option.getD_some]
    rw [hlast]
    exact ih h.2.2

theorem runSpan?_text (htext : token.isText) (h : Adjacent start (token :: run) stop) :
    runSpan? (token :: run) = some (.between start stop) := by
  have hkind : token.kind ≠ .endTag := by
    intro hkind
    simp [isText, hkind] at htext
  rw [runSpan?, if_neg hkind, h.stop_eq, h.1]

end Token

mutual

/-- The spans of what stands in a node, in document order. Of an element it is the opening tag, then
what stands in its children. -/
def Node.constructs : Node → List Span
  | .element tag children _ _ => tag.span :: constructsOf children
  | .text _ span => [span]
  | .comment _ span => [span]
  | .declaration _ span => [span]

def constructsOf : List Node → List Span
  | [] => []
  | node :: nodes => node.constructs ++ constructsOf nodes

end

@[simp]
theorem constructsOf_append (nodes nodes' : List Node) :
    constructsOf (nodes ++ nodes') = constructsOf nodes ++ constructsOf nodes' := by
  induction nodes with
  | nil => rfl
  | cons node nodes ih => simp [constructsOf, ih]

theorem constructsOf_singleton (node : Node) : constructsOf [node] = node.constructs := by
  simp [constructsOf]

namespace Builder

section Collecting

variable {α : Type} {g : OpenTag → List α} {f : List Node → List α}

/-- What is collected from the tree built so far, in document order: from an element first what its
opening tag gives, then what its children give. -/
def collected (g : OpenTag → List α) (f : List Node → List α) (b : Builder) : List α :=
  f b.roots ++ b.pending.reverse.flatMap fun e => g e.tag ++ f e.children

/-- Nodes are collected from one after another, and an element as long as it is open gives what it
gives when it is closed. -/
structure Collects (g : OpenTag → List α) (f : List Node → List α) : Prop where
  append : ∀ nodes nodes', f (nodes ++ nodes') = f nodes ++ f nodes'
  element : ∀ tag children span endName,
    f [.element tag children span endName] = g tag ++ f children

theorem Collects.nil (h : Collects g f) : f [] = [] := by
  have happ := congrArg List.length (h.append [] [])
  rw [List.append_nil, List.length_append] at happ
  exact List.length_eq_zero_iff.1 (by omega)

/-- The innermost open element comes last. -/
theorem collected_cons (roots : List Node) (e : OpenElement) (pending : List OpenElement) :
    collected g f ⟨roots, e :: pending⟩ =
      collected g f ⟨roots, pending⟩ ++ (g e.tag ++ f e.children) := by
  simp [collected]

/-- The siblings that are being read come last. -/
theorem collected_modify (g : OpenTag → List α) (f : List Node → List α) (b : Builder) :
    ∃ outer, b.collected g f = outer ++ f b.siblings ∧
      ∀ change, (b.modify change).collected g f = outer ++ f (change b.siblings) := by
  obtain ⟨roots, _ | ⟨e, pending⟩⟩ := b
  · exact ⟨[], by simp [collected, siblings], fun f => by simp [collected, modify, siblings]⟩
  · exact ⟨collected g f ⟨roots, pending⟩ ++ g e.tag, by simp [collected_cons, siblings],
      fun f => by simp [collected_cons, modify, siblings]⟩

theorem collected_push (h : Collects g f) (b : Builder) (node : Node) :
    (b.push node).collected g f = b.collected g f ++ f [node] := by
  obtain ⟨outer, hb, hmodify⟩ := collected_modify g f b
  rw [push, hmodify, hb, h.append, List.append_assoc]

/-- Closing an element changes no order. -/
theorem collected_closeInnermost (h : Collects g f) (roots : List Node) (e : OpenElement)
    (pending : List OpenElement) (stop : Nat) (endName : Option Span) :
    ((Builder.mk roots pending).push (e.close stop endName)).collected g f =
      collected g f ⟨roots, e :: pending⟩ := by
  rw [collected_push h, collected_cons, OpenElement.close, h.element]

theorem collected_close (h : Collects g f) (b : Builder) (tag : Excerpt) :
    (b.close tag).collected g f = b.collected g f := by
  rcases close_cases (P := fun b' => b'.collected g f = b.collected g f) rfl
    (fun _ _ _ hb _ => (collected_closeInnermost h _ _ _ _ _).trans hb) with
    hsame | ⟨e, outer, hb, -, hclose⟩
  · rw [hsame]
  · rw [hclose, collected_closeInnermost h, hb]

theorem collected_openTag (h : Collects g f) (b : Builder) (tag : OpenTag) :
    (b.openTag tag).collected g f = b.collected g f ++ g tag := by
  simp only [openTag]
  split
  · rw [collected_push h, h.element, h.nil, List.append_nil]
  · rw [collected_cons, h.nil, List.append_nil]

end Collecting

variable {b : Builder} {node : Node} {init : List Span} {span : Span}

/-- What has been read, in document order. -/
def constructs (b : Builder) : List Span :=
  constructsOf b.roots ++ b.pending.reverse.flatMap fun e => e.tag.span :: constructsOf e.children

theorem collects_constructsOf : Collects (fun tag => [tag.span]) constructsOf :=
  ⟨constructsOf_append, fun _ _ _ _ => constructsOf_singleton _⟩

theorem constructs_modify (b : Builder) :
    ∃ outer, b.constructs = outer ++ constructsOf b.siblings ∧
      ∀ f, (b.modify f).constructs = outer ++ constructsOf (f b.siblings) :=
  collected_modify (fun tag => [tag.span]) constructsOf b

theorem constructs_push (b : Builder) (node : Node) :
    (b.push node).constructs = b.constructs ++ node.constructs := by
  rw [← constructsOf_singleton]
  exact collected_push collects_constructsOf b node

theorem constructs_closeInnermost (roots : List Node) (e : OpenElement)
    (pending : List OpenElement) (stop : Nat) (endName : Option Span) :
    ((Builder.mk roots pending).push (e.close stop endName)).constructs =
      constructs ⟨roots, e :: pending⟩ :=
  collected_closeInnermost collects_constructsOf roots e pending stop endName

/-- Any token but text adds its span, if it is no end tag. -/
theorem constructs_step (h : token.isText = false) (b : Builder) :
    (b.step token).constructs = b.constructs ++ (Token.runSpan? [token]).toList := by
  have hspan : Span.between token.start token.stop = token.span := by
    simp [Span.between, Excerpt.stop, Excerpt.span]
  simp only [step, Token.runSpan?, List.getLast?_nil, Option.getD_none, hspan]
  split
  · next hkind => simp [Token.isText, hkind] at h
  · next hkind => simp [Token.isText, hkind] at h
  · next hkind => simp [hkind, constructs_push, Node.constructs]
  · next hkind => simp [hkind, constructs_push, Node.constructs]
  · next hkind =>
    rw [hkind]
    exact collected_openTag collects_constructsOf b _
  · next hkind =>
    rw [hkind]
    exact (collected_close collects_constructsOf b _).trans (List.append_nil _).symm

/-- After any token but text, text starts a node of its own, unless an end tag was ignored. -/
theorem step_textStarts (h : token.isText = false) (b : Builder) :
    b.step token = b ∨ (b.step token).TextStarts := by
  simp only [step]
  split
  · next hkind => simp [Token.isText, hkind] at h
  · next hkind => simp [Token.isText, hkind] at h
  · exact Or.inr (textStarts_push b rfl)
  · exact Or.inr (textStarts_push b rfl)
  · refine Or.inr ?_
    simp only [openTag]
    split
    · exact textStarts_push b rfl
    · exact textStarts_nil rfl
  · rcases close_cases (P := fun _ => True) trivial (fun _ _ _ _ _ => trivial) with
      hsame | ⟨e, outer, -, -, hclose⟩
    · exact Or.inl hsame
    · rw [hclose]
      exact Or.inr (textStarts_push _ rfl)

/-- The siblings end in a text with this span. -/
def TextEnds (b : Builder) (span : Span) : Prop :=
  ∃ t, b.siblings.getLast? = some (.text t span)

theorem TextStarts.not_textEnds (h : b.TextStarts) : ¬ b.TextEnds span := by
  rintro ⟨t, hlast⟩
  cases h _ hlast

theorem step_of_isText (h : token.isText) (b : Builder) :
    b.step token = b.modify (appendText · token.toExcerpt) := by
  simp only [Token.isText, Bool.or_eq_true, decide_eq_true_eq] at h
  rcases h with h | h <;> simp only [step, h]

/-- Text that starts where the last text ends is joined to it. -/
theorem step_joined (htext : token.isText) (h : b.TextEnds span) (hstop : span.stop = token.start)
    (hb : b.constructs = init ++ [span]) :
    (b.step token).constructs = init ++ [.between span.start token.stop] ∧
      (b.step token).TextEnds (.between span.start token.stop) := by
  obtain ⟨t, hlast⟩ := h
  obtain ⟨outer, hconstructs, hmodify⟩ := constructs_modify b
  have hjoin : appendText b.siblings token.toExcerpt =
      b.siblings.dropLast ++ [.text (t ++ token.text) (.between span.start token.stop)] := by
    simp only [appendText, hlast, if_pos hstop, Excerpt.cover_span hstop]
  have hinit : outer ++ constructsOf b.siblings.dropLast = init := by
    rw [hconstructs, ← List.dropLast_append_getLast? _ hlast, constructsOf_append,
      constructsOf_singleton, ← List.append_assoc] at hb
    exact List.append_cancel_right hb
  rw [step_of_isText htext]
  constructor
  · rw [hmodify, hjoin, constructsOf_append, constructsOf_singleton, ← List.append_assoc, hinit]
    rfl
  · exact ⟨t ++ token.text, by rw [siblings_modify, hjoin, List.getLast?_concat]⟩

/-- Other text starts a node of its own. -/
theorem step_started (htext : token.isText)
    (h : ∀ span, b.TextEnds span → span.stop ≠ token.start) :
    (b.step token).constructs = b.constructs ++ [token.span] ∧
      (b.step token).TextEnds token.span := by
  have hstart : appendText b.siblings token.toExcerpt =
      b.siblings ++ [.text token.text token.span] := by
    simp only [appendText]
    split
    · next t span hlast => rw [if_neg (h span ⟨t, hlast⟩)]
    · rfl
  have hpush : b.step token = b.push (.text token.text token.span) := by
    rw [step_of_isText htext]
    exact modify_congr hstart
  rw [hpush]
  exact ⟨constructs_push b _, token.text, by rw [push, siblings_modify, List.getLast?_concat]⟩

/-- A run of text behind a text is joined to it as a whole. -/
theorem foldl_joined (htext : ∀ token ∈ run, token.isText)
    (hadjacent : Token.Adjacent offset run stop) (h : b.TextEnds span) (hstop : span.stop = offset)
    (hb : b.constructs = init ++ [span]) :
    (run.foldl step b).constructs = init ++ [.between span.start stop] ∧
      (run.foldl step b).TextEnds (.between span.start stop) := by
  induction run generalizing b span offset with
  | nil =>
    obtain rfl : offset = stop := hadjacent
    have hspan : Span.between span.start offset = span := by
      simp only [Span.stop] at hstop
      simp [Span.between, ← hstop]
    rw [hspan]
    exact ⟨hb, h⟩
  | cons token run ih =>
    obtain ⟨htoken, hrun⟩ := List.forall_mem_cons.1 htext
    obtain ⟨rfl, hne, hadjacent⟩ := hadjacent
    obtain ⟨hconstructs, hends⟩ := step_joined htoken h hstop hb
    have hend : (Span.between span.start token.stop).stop = token.stop := by
      apply Span.stop_between
      have hlt := Token.start_lt_stop hne
      simp only [Span.stop] at hstop
      omega
    exact (ih hrun hadjacent hends hend hconstructs :)

/-- The last text ends before `offset`, or it ends there and no text comes next. -/
def Apart (b : Builder) (offset : Nat) (tokens : List Token) : Prop :=
  ∀ span, b.TextEnds span →
    span.stop ≤ offset ∧ (span.stop = offset → ∀ token ∈ tokens.head?, token.isText = false)

theorem Apart.step (h : b.Apart token.start (token :: tokens)) (hother : token.isText = false)
    (hne : token.text ≠ []) : (b.step token).Apart token.stop tokens := by
  intro span hends
  rcases step_textStarts hother b with hsame | hstarts
  · rw [hsame] at hends
    have hle := (h span hends).1
    have hlt := Token.start_lt_stop hne
    exact ⟨by omega, fun hstop => by omega⟩
  · exact absurd hends hstarts.not_textEnds

/-- Reading tokens adds their constructs in their order. -/
theorem constructs_foldl (hadjacent : Token.Adjacent offset tokens stop)
    (h : b.Apart offset tokens) :
    (tokens.foldl step b).constructs = b.constructs ++ Token.constructs tokens := by
  induction hn : tokens.length using Nat.strong_induction_on generalizing tokens b offset with
  | _ n ih =>
    cases tokens with
    | nil => simp [Token.constructs_nil]
    | cons token tokens =>
      obtain ⟨rfl, hne, hadjacent⟩ := hadjacent
      by_cases htext : token.isText
      · -- the whole run of text becomes one node
        obtain ⟨run, rest, rfl, hrun, hrest⟩ := Token.exists_run tokens
        obtain ⟨mid, hadjacentRun, hadjacentRest⟩ := hadjacent.of_append
        have hwhole : Token.Adjacent token.start (token :: run) mid := ⟨rfl, hne, hadjacentRun⟩
        have hstart : ∀ span, b.TextEnds span → span.stop ≠ token.start := by
          intro span hends hstop
          rw [(h span hends).2 hstop token rfl] at htext
          cases htext
        obtain ⟨hfirst, hends⟩ := step_started htext hstart
        obtain ⟨hall, hends⟩ := foldl_joined hrun hadjacentRun hends rfl hfirst
        have hapart : (run.foldl step (b.step token)).Apart mid rest := by
          rintro span ⟨t, hlast⟩
          obtain ⟨t', hlast'⟩ := hends
          obtain ⟨-, rfl⟩ := Node.text.inj (Option.some.inj (hlast.symm.trans hlast'))
          exact ⟨Nat.le_of_eq (Span.stop_between hwhole.le), fun _ => hrest⟩
        have hshorter : rest.length < n := by
          rw [List.length_cons, List.length_append] at hn
          omega
        rw [List.foldl_cons, List.foldl_append, ih _ hshorter hadjacentRest hapart rfl, hall,
          ← List.cons_append,
          Token.constructs_run (List.forall_mem_cons.2 ⟨htext, hrun⟩) (by simp) hrest,
          Token.runSpan?_text htext hwhole]
        simp [Excerpt.span]
      · have hother : token.isText = false := by simpa using htext
        rw [List.foldl_cons, ih tokens.length (by simp [← hn]) hadjacent (h.step hother hne) rfl,
          constructs_step hother, Token.constructs_cons hother, List.append_assoc]

end Builder

/-- The tree of a text holds every token but the end tags once, in their order. -/
theorem parse_keeps_constructs (t : Text) :
    constructsOf (parse t) = Token.constructs (Token.lex t) := by
  have hnone : (Builder.mk [] []).Apart 0 (Token.lex t) := by
    rintro span ⟨text, hlast⟩
    cases hlast
  have hread := Builder.constructs_foldl (Token.lexFrom_adjacent 0 t) hnone
  have hparse := parse_induction (P := fun b => b.constructs = Token.constructs (Token.lex t)) hread
    fun _ _ _ h => (Builder.constructs_closeInnermost _ _ _ _ _).trans h
  simpa [Builder.constructs] using hparse

end TemplateProjection.Markup
