import TemplateProjection.Proofs.BlockExpansion
import TemplateProjection.Proofs.Lists

/-!
The offside rule: how far lines are indented counts only in comparison. Two outlines whose lines
have the same content, and indents that compare alike, mean the same, as long as no line takes text
from the lines below it.
-/
namespace TemplateProjection.Outline

variable {lines lines' : List Line} {content t : Text}

/-- The kinds of lines, told apart by what a line starts with. -/
inductive LineKind where
  | silent
  | comment (rest : Text)
  | text (text : Text)
  /-- A lone `.`. -/
  | textBlock
  | markup
  | element
deriving DecidableEq, Repr

def LineKind.isComment : LineKind → Bool
  | .comment _ => true
  | _ => false

def Line.kind (line : Line) : LineKind :=
  match line.content with
  | '/' :: '/' :: '-' :: _ => .silent
  | '/' :: '/' :: rest => .comment rest
  | '|' :: ' ' :: rest => .text rest
  | '|' :: rest => .text rest
  | ['.'] => .textBlock
  | '<' :: _ => .markup
  | _ => .element

/-- Reading an entry goes by the kind of its line. -/
theorem readEntry_eq (line : Line) (lines : List Line) :
    readEntry line lines =
      match line.kind with
      | .silent => (none, afterBlock line.indent lines)
      | .comment rest =>
        (some ⟨line.indent, .leaf (.comment (commentData rest (blockText line.indent lines)))⟩,
          afterBlock line.indent lines)
      | .text text => (some ⟨line.indent, .leaf (.text text)⟩, lines)
      | .textBlock =>
        (some ⟨line.indent, .leaf (.text (blockText line.indent lines))⟩,
          afterBlock line.indent lines)
      | .markup => (some ⟨line.indent, .leaf (.markup line.content)⟩, lines)
      | .element =>
        (some (elementEntry line.indent (readElement line.content lines).1
          (readElement line.content lines).2).1,
          (elementEntry line.indent (readElement line.content lines).1
            (readElement line.content lines).2).2) := by
  obtain ⟨indentation, content⟩ := line
  unfold readEntry Line.kind
  dsimp only
  split <;> simp only [*]

/-- The line takes nothing from the lines below it. -/
structure StandsAlone (line : Line) (below : List Line) : Prop where
  /-- It opens no block of text. -/
  noText : line.kind ≠ .textBlock ∧
    (line.kind = .element → (readElement line.content below).1.textBelow = false)
  /-- If it is a comment, nothing deeper is directly below it. -/
  noBlock : line.kind.isComment → blockLines line.indent below = []
  /-- If it is an element, its attribute lists are closed on the line. -/
  closesLists : line.kind = .element → (readElement line.content below).2 = below

instance (line : Line) (below : List Line) : Decidable (StandsAlone line below) :=
  decidable_of_iff
    ((line.kind ≠ .textBlock ∧
      (line.kind = .element → (readElement line.content below).1.textBelow = false)) ∧
      (line.kind.isComment → blockLines line.indent below = []) ∧
      (line.kind = .element → (readElement line.content below).2 = below))
    ⟨fun h => ⟨h.1, h.2.1, h.2.2⟩, fun h => ⟨h.noText, h.noBlock, h.closesLists⟩⟩

/-- The lines outside silent comments, each with the lines below it. -/
def shownLines : List Line → List (Line × List Line)
  | [] => []
  | line :: lines =>
    if line.kind = .silent then
      have := Nat.lt_succ_of_le (afterBlock_length_le line.indent lines)
      shownLines (afterBlock line.indent lines)
    else (line, lines) :: shownLines lines
termination_by lines => lines.length

/-- The lines have the same content one by one, and where there is any, their indents compare
alike. -/
structure Alike (lines lines' : List Line) : Prop where
  contents : lines.map Line.content = lines'.map Line.content
  indents : ∀ p ∈ lines.zip lines', ∀ q ∈ lines.zip lines',
    p.1.isEmpty = false → q.1.isEmpty = false →
      compare p.1.indent q.1.indent = compare p.2.indent q.2.indent

/-! ### Elements whose lists are closed -/

theorem readList_lines_suffix (t : Text) (lines : List Line) :
    (readList t lines).lines <:+ lines := by
  induction lines generalizing t with
  | nil =>
    unfold readList
    split <;> exact List.suffix_rfl
  | cons line lines ih =>
    unfold readList
    split
    · exact List.suffix_rfl
    · exact (ih _).trans (List.suffix_cons line lines)

theorem readHead_lines_suffix (content : Text) (lines : List Line) :
    (readHead content lines).lines <:+ lines := by
  dsimp only [readHead]
  unfold readList?
  split
  · exact readList_lines_suffix _ lines
  · exact List.suffix_rfl

/-- A list that takes no line has closed on its own, unless there are no lines to take. -/
theorem readList_congr (h : (readList t lines).lines = lines)
    (hlength : lines'.length = lines.length) :
    readList t lines' = { readList t lines with lines := lines' } := by
  cases hclosing : closing? 1 none false t with
  | some parts =>
    unfold readList
    rw [hclosing]
  | none =>
    cases lines with
    | nil =>
      obtain rfl := List.length_eq_zero_iff.1 hlength
      unfold readList
      rw [hclosing]
    | cons line lines =>
      unfold readList at h
      rw [hclosing] at h
      have hle := readList_lines_length_le (t ++ '\n' :: line.text) lines
      rw [h] at hle
      exact absurd hle (Nat.not_succ_le_self _)

theorem readHead_congr (h : (readHead content lines).lines = lines)
    (hlength : lines'.length = lines.length) :
    readHead content lines' = { readHead content lines with lines := lines' } := by
  have hlist : ∀ t, (readList? t lines).lines = lines →
      readList? t lines' = { readList? t lines with lines := lines' } := by
    intro t hlines
    unfold readList? at hlines ⊢
    split
    · exact readList_congr hlines hlength
    · rfl
  dsimp only [readHead] at h ⊢
  rw [hlist _ h]

theorem readElement_eq (content : Text) (lines : List Line) :
    readElement content lines =
      let head := readHead content lines
      match head.rest with
      | ['.'] => (⟨⟨head.name, head.attributes, false⟩, [], true⟩, head.lines)
      | '/' :: rest => (⟨⟨head.name, head.attributes, true⟩, inlineText rest, false⟩, head.lines)
      | ':' :: rest =>
        let child := readElement (Text.trimStart rest) head.lines
        (⟨⟨head.name, head.attributes, false⟩, [.element child.1.tag child.1.children], false⟩,
          child.2)
      | rest => (⟨⟨head.name, head.attributes, false⟩, inlineText rest, false⟩, head.lines) := by
  rw [readElement]
  dsimp only
  split <;> simp only [*]

/-- An element that takes no line reads the same above other lines. -/
theorem readElement_congr (h : (readElement content lines).2 = lines)
    (hlength : lines'.length = lines.length) :
    readElement content lines' = ((readElement content lines).1, lines') := by
  fun_induction readElement content lines with
  | case1 content lines head hrest =>
    simp only [head] at hrest
    simp only [readElement_eq content lines', readHead_congr h hlength, hrest, head]
  | case2 content lines head rest hrest =>
    simp only [head] at hrest
    simp only [readElement_eq content lines', readHead_congr h hlength, hrest, head]
  | case3 content lines head rest hrest _ child ih =>
    -- the child leaves the lines to which the head has come, and so the head has taken none
    have hlines : head.lines = lines := by
      apply (readHead_lines_suffix content lines).eq_of_length_le
      calc lines.length
        _ = child.2.length := congrArg List.length h.symm
        _ ≤ head.lines.length := readElement_length_le (Text.trimStart rest) head.lines
    have hsame := ih (h.trans hlines.symm) (hlength.trans (congrArg List.length hlines.symm))
    simp only [head] at hrest hlines hsame
    simp only [readElement_eq content lines', readHead_congr hlines hlength, hrest, hsame, head,
      child]
  | case4 content lines head hdot hslash hcolon =>
    simp only [head] at hdot hslash hcolon
    simp only [readElement_eq content lines', readHead_congr h hlength, head]

/-! ### Two readings at once -/

/-- Pairs of lines with the same content, whose indents compare alike where there is any. -/
structure AlikePairs (ps : List (Line × Line)) : Prop where
  content : ∀ p ∈ ps, p.1.content = p.2.content
  indents : ∀ p ∈ ps, ∀ q ∈ ps, p.1.isEmpty = false → q.1.isEmpty = false →
    compare p.1.indent q.1.indent = compare p.2.indent q.2.indent

namespace AlikePairs

variable {p q : Line × Line} {ps qs : List (Line × Line)}

theorem subset (h : AlikePairs ps) (hsub : qs ⊆ ps) : AlikePairs qs where
  content p hp := h.content p (hsub hp)
  indents p hp q hq := h.indents p (hsub hp) q (hsub hq)

theorem isEmpty_eq (h : AlikePairs ps) (hp : p ∈ ps) : p.1.isEmpty = p.2.isEmpty := by
  rw [Line.isEmpty, Line.isEmpty, h.content p hp]

theorem kind_eq (h : AlikePairs ps) (hp : p ∈ ps) : p.1.kind = p.2.kind := by
  rw [Line.kind, Line.kind, h.content p hp]

/-- Lines are below another in both outlines or in none. -/
theorem isBelow_eq (h : AlikePairs ps) (hp : p ∈ ps) (hsolid : p.1.isEmpty = false) (hq : q ∈ ps) :
    q.1.isBelow p.1.indent = q.2.isBelow p.2.indent := by
  rw [Line.isBelow, Line.isBelow, ← h.isEmpty_eq hq]
  cases hempty : q.1.isEmpty with
  | true => rfl
  | false =>
    have horder := h.indents p hp q hq hsolid hempty
    rw [Bool.false_or, Bool.false_or, decide_eq_decide, ← Nat.compare_eq_lt, horder,
      Nat.compare_eq_lt]

/-- The blocks below a line are equally long. -/
theorem length_blockLines_eq (h : AlikePairs (p :: ps)) (hsolid : p.1.isEmpty = false) :
    (blockLines p.1.indent (ps.map Prod.fst)).length =
      (blockLines p.2.indent (ps.map Prod.snd)).length := by
  have htake : ps.takeWhile (Line.isBelow p.1.indent ∘ Prod.fst) =
      ps.takeWhile (Line.isBelow p.2.indent ∘ Prod.snd) :=
    takeWhile_congr fun q hq =>
      h.isBelow_eq List.mem_cons_self hsolid (List.mem_cons_of_mem p hq)
  have hdrop : (ps.takeWhile (Line.isBelow p.2.indent ∘ Prod.snd)).reverse.dropWhile
        (Line.isEmpty ∘ Prod.fst) =
      (ps.takeWhile (Line.isBelow p.2.indent ∘ Prod.snd)).reverse.dropWhile
        (Line.isEmpty ∘ Prod.snd) := by
    refine dropWhile_congr fun q hq => ?_
    have hmem := (List.takeWhile_prefix _).subset (List.mem_reverse.1 hq)
    exact h.isEmpty_eq (List.mem_cons_of_mem p hmem)
  simp only [blockLines, List.takeWhile_map, ← List.map_reverse, List.dropWhile_map,
    List.length_map, htake, hdrop]

/-- Below a line, both readings go on behind its block at the same place. -/
theorem afterBlock_eq (h : AlikePairs (p :: ps)) (hsolid : p.1.isEmpty = false) :
    ∃ qs, qs.length ≤ ps.length ∧ qs ⊆ ps ∧
      afterBlock p.1.indent (ps.map Prod.fst) = qs.map Prod.fst ∧
      afterBlock p.2.indent (ps.map Prod.snd) = qs.map Prod.snd := by
  refine ⟨ps.drop (blockLines p.1.indent (ps.map Prod.fst)).length, by simp,
    List.drop_subset _ _, ?_, ?_⟩
  · rw [afterBlock, List.map_drop]
  · rw [afterBlock, List.map_drop, h.length_blockLines_eq hsolid]

/-- A line that stands alone is the same entry in both outlines, but for its indent. -/
theorem readEntry_eq_of_standsAlone (h : AlikePairs (p :: ps)) (hsolid : p.1.isEmpty = false)
    (hshown : p.1.kind ≠ .silent) (halone : StandsAlone p.1 (ps.map Prod.fst)) :
    ∃ item, readEntry p.1 (ps.map Prod.fst) = (some ⟨p.1.indent, item⟩, ps.map Prod.fst) ∧
      readEntry p.2 (ps.map Prod.snd) = (some ⟨p.2.indent, item⟩, ps.map Prod.snd) := by
  have hkind := h.kind_eq List.mem_cons_self
  have hcontent := h.content p List.mem_cons_self
  rw [readEntry_eq, readEntry_eq, ← hkind, ← hcontent]
  cases hcase : p.1.kind with
  | silent => exact absurd hcase hshown
  | comment rest =>
    have hnone := halone.noBlock (by rw [hcase]; rfl)
    have hnone' : blockLines p.2.indent (ps.map Prod.snd) = [] := by
      rw [← List.length_eq_zero_iff, ← h.length_blockLines_eq hsolid, hnone, List.length_nil]
    refine ⟨.leaf (.comment rest), ?_, ?_⟩
    · simp only [afterBlock, blockText, hnone]
      rfl
    · simp only [afterBlock, blockText, hnone']
      rfl
  | text text => exact ⟨_, rfl, rfl⟩
  | textBlock => exact absurd hcase halone.noText.1
  | markup => exact ⟨_, rfl, rfl⟩
  | element =>
    have hlines := halone.closesLists hcase
    have htext := halone.noText.2 hcase
    have hsame := readElement_congr hlines (show (ps.map Prod.snd).length = _ by simp)
    rw [hsame]
    simp only [elementEntry, htext, hlines]
    exact ⟨_, rfl, rfl⟩

end AlikePairs

/-- Pairs of entries with the same item, whose indents compare alike. -/
structure AlikeEntries (es : List (Entry × Entry)) : Prop where
  item : ∀ e ∈ es, e.1.item = e.2.item
  indents : ∀ e ∈ es, ∀ f ∈ es, e.1.indent < f.1.indent ↔ e.2.indent < f.2.indent

theorem AlikeEntries.subset {es fs : List (Entry × Entry)} (h : AlikeEntries es) (hsub : fs ⊆ es) :
    AlikeEntries fs where
  item e he := h.item e (hsub he)
  indents e he f hf := h.indents e (hsub he) f (hsub hf)

/-- Nesting compares indents and does nothing else with them. -/
theorem AlikeEntries.nest_eq {es : List (Entry × Entry)} (h : AlikeEntries es) :
    nest (es.map Prod.fst) = nest (es.map Prod.snd) := by
  -- By induction on the number of entries, as they are nested in two parts.
  induction hn : es.length using Nat.strong_induction_on generalizing es with
  | _ n ih =>
    cases es with
    | nil => rfl
    | cons e es =>
      obtain ⟨⟨indent, item⟩, ⟨indent', item'⟩⟩ := e
      obtain rfl : item = item' := h.item _ List.mem_cons_self
      have hes : AlikeEntries es := h.subset (List.subset_cons_self _ es)
      rw [List.length_cons] at hn
      cases item with
      | leaf item =>
        rw [List.map_cons, List.map_cons, nest, nest, ih es.length (by omega) hes rfl]
      | parent tag children =>
        have hdeeper : ∀ f ∈ es, ((fun f : Entry => decide (indent < f.indent)) ∘ Prod.fst) f =
            ((fun f : Entry => decide (indent' < f.indent)) ∘ Prod.snd) f := fun f hf =>
          decide_eq_decide.2 (h.indents _ List.mem_cons_self f (List.mem_cons_of_mem _ hf))
        have hbelow := (List.takeWhile_sublist
          ((fun f : Entry => decide (indent' < f.indent)) ∘ Prod.snd) (l := es))
        have hafter := (List.dropWhile_sublist
          ((fun f : Entry => decide (indent' < f.indent)) ∘ Prod.snd) (l := es))
        rw [List.map_cons, List.map_cons, nest, nest, List.takeWhile_map, List.takeWhile_map,
          List.dropWhile_map, List.dropWhile_map, takeWhile_congr hdeeper, dropWhile_congr hdeeper,
          ih _ (Nat.lt_of_le_of_lt hbelow.length_le (by omega)) (hes.subset hbelow.subset) rfl,
          ih _ (Nat.lt_of_le_of_lt hafter.length_le (by omega)) (hes.subset hafter.subset) rfl]

theorem shownLines_silent {line : Line} (h : line.kind = .silent) (lines : List Line) :
    shownLines (line :: lines) = shownLines (afterBlock line.indent lines) := by
  rw [shownLines, if_pos h]

theorem shownLines_cons {line : Line} (h : line.kind ≠ .silent) (lines : List Line) :
    shownLines (line :: lines) = (line, lines) :: shownLines lines := by
  rw [shownLines, if_neg h]

theorem Line.kind_of_isEmpty {line : Line} (h : line.isEmpty) : line.kind = .element := by
  rw [kind, List.isEmpty_iff.1 h]

/-- The pairs of entries come from pairs of lines. -/
def FromLines (ps : List (Line × Line)) (es : List (Entry × Entry)) : Prop :=
  ∀ e ∈ es, e.1.item = e.2.item ∧ ∃ p ∈ ps, p.1.isEmpty = false ∧
    e.1.indent = p.1.indent ∧ e.2.indent = p.2.indent

theorem FromLines.mono {ps qs : List (Line × Line)} {es : List (Entry × Entry)}
    (h : FromLines qs es) (hsub : qs ⊆ ps) : FromLines ps es := by
  intro e he
  obtain ⟨hitem, q, hq, hindents⟩ := h e he
  exact ⟨hitem, q, hsub hq, hindents⟩

theorem FromLines.alikeEntries {ps : List (Line × Line)} {es : List (Entry × Entry)}
    (h : FromLines ps es) (hps : AlikePairs ps) : AlikeEntries es where
  item e he := (h e he).1
  indents e he f hf := by
    obtain ⟨-, p, hp, hsolid, hindent, hindent'⟩ := h e he
    obtain ⟨-, q, hq, hsolid', hindentf, hindentf'⟩ := h f hf
    rw [hindent, hindent', hindentf, hindentf', ← Nat.compare_eq_lt,
      hps.indents p hp q hq hsolid hsolid', Nat.compare_eq_lt]

/-- Both outlines have the same entries, but for the indents. -/
theorem AlikePairs.exists_entries {ps : List (Line × Line)} (h : AlikePairs ps)
    (halone : ∀ shown ∈ shownLines (ps.map Prod.fst), StandsAlone shown.1 shown.2) :
    ∃ es, entries (ps.map Prod.fst) = es.map Prod.fst ∧
      entries (ps.map Prod.snd) = es.map Prod.snd ∧ FromLines ps es := by
  -- By induction on the number of lines; a silent comment skips those of its block.
  induction hn : ps.length using Nat.strong_induction_on generalizing ps with
  | _ n ih =>
    cases ps with
    | nil => exact ⟨[], by simp [entries], by simp [entries], by simp [FromLines]⟩
    | cons p ps =>
      have hsub : ps ⊆ p :: ps := List.subset_cons_self p ps
      rw [List.length_cons] at hn
      rw [List.map_cons] at halone
      rw [List.map_cons, List.map_cons]
      cases hsolid : p.1.isEmpty with
      | true =>
        have hempty : p.2.isEmpty = true := (h.isEmpty_eq List.mem_cons_self).symm.trans hsolid
        have hshown : p.1.kind ≠ .silent := by simp [Line.kind_of_isEmpty hsolid]
        rw [shownLines_cons hshown] at halone
        obtain ⟨es, hes, hes', hfrom⟩ := ih ps.length (by omega) (h.subset hsub)
          (List.forall_mem_cons.1 halone).2 rfl
        rw [entries, entries, if_pos hsolid, if_pos hempty]
        exact ⟨es, hes, hes', hfrom.mono hsub⟩
      | false =>
        have hsolid' : p.2.isEmpty = false := (h.isEmpty_eq List.mem_cons_self).symm.trans hsolid
        rw [entries_cons hsolid, entries_cons hsolid']
        by_cases hsilent : p.1.kind = .silent
        · have hsilent' : p.2.kind = .silent := (h.kind_eq List.mem_cons_self).symm.trans hsilent
          obtain ⟨qs, hlength, hqs, hafter, hafter'⟩ := h.afterBlock_eq hsolid
          rw [shownLines_silent hsilent, hafter] at halone
          obtain ⟨es, hes, hes', hfrom⟩ := ih qs.length (by omega)
            (h.subset (List.Subset.trans hqs hsub)) halone rfl
          rw [readEntry_eq, readEntry_eq, hsilent, hsilent', hafter, hafter']
          exact ⟨es, hes, hes', hfrom.mono (List.Subset.trans hqs hsub)⟩
        · rw [shownLines_cons hsilent] at halone
          obtain ⟨hline, hbelow⟩ := List.forall_mem_cons.1 halone
          obtain ⟨item, hread, hread'⟩ := h.readEntry_eq_of_standsAlone hsolid hsilent hline
          obtain ⟨es, hes, hes', hfrom⟩ := ih ps.length (by omega) (h.subset hsub) hbelow rfl
          refine ⟨(⟨p.1.indent, item⟩, ⟨p.2.indent, item⟩) :: es, ?_, ?_, ?_⟩
          · rw [hread, hes]
            rfl
          · rw [hread', hes']
            rfl
          · refine List.forall_mem_cons.2 ⟨⟨rfl, p, List.mem_cons_self, hsolid, rfl, rfl⟩, ?_⟩
            exact hfrom.mono hsub

theorem Alike.pairs (h : Alike lines lines') :
    AlikePairs (lines.zip lines') ∧ (lines.zip lines').map Prod.fst = lines ∧
      (lines.zip lines').map Prod.snd = lines' := by
  have hlength : lines.length = lines'.length := by
    simpa using congrArg List.length h.contents
  refine ⟨⟨fun p hp => ?_, h.indents⟩, List.map_fst_zip (Nat.le_of_eq hlength),
    List.map_snd_zip (Nat.le_of_eq hlength.symm)⟩
  obtain ⟨i, hi⟩ := List.mem_iff_getElem?.1 hp
  obtain ⟨hfst, hsnd⟩ := List.getElem?_zip_eq_some.1 hi
  have hcontent := congrArg (·[i]?) h.contents
  simpa [hfst, hsnd] using hcontent

/-- The offside rule. An outline keeps its meaning when its lines are indented in another way, as
long as their indents compare as before. No line outside silent comments may take text from the
lines below it. -/
theorem compile_eq_of_alike {t t' : Text} (h : Alike (linesOf t) (linesOf t'))
    (halone : ∀ shown ∈ shownLines (linesOf t), StandsAlone shown.1 shown.2) :
    compile t = compile t' := by
  obtain ⟨hpairs, hfst, hsnd⟩ := h.pairs
  obtain ⟨es, hes, hes', hfrom⟩ := hpairs.exists_entries (by rwa [hfst])
  rw [hfst] at hes
  rw [hsnd] at hes'
  rw [compile, compile, parse, parse, hes, hes', (hfrom.alikeEntries hpairs).nest_eq]

/-- Tabs for spaces, more of them at every depth, and a silent comment whose lines would take text
from below if they were read. -/
theorem compile_eq_of_alike_tabs :
    let t := Text.join ['\n'] (["ul", "  li one", "    // note", "  //- p(", "      .", "",
      "     p.", "  li: a(x=\")\") two", "footer"].map String.toList)
    let t' := Text.join ['\n'] (["  ul", "\t\t\tli one", "\t\t\t\t// note", "\t\t\t//- p(",
      "\t\t\t\t\t\t.", " ", "\t\t\t\t\tp.", "\t\t\tli: a(x=\")\") two",
      "  footer"].map String.toList)
    Alike (linesOf t) (linesOf t') ∧
      (∀ shown ∈ shownLines (linesOf t), StandsAlone shown.1 shown.2) ∧
      compile t = ("<ul><li>one<!-- note --></li><li><a x=\")\">two</a></li></ul>" ++
        "<footer></footer>").toList ∧
      compile t' = compile t := by
  intro t t'
  have halike : Alike (linesOf t) (linesOf t') := ⟨by decide +kernel, by decide +kernel⟩
  have halone : ∀ shown ∈ shownLines (linesOf t), StandsAlone shown.1 shown.2 := by decide +kernel
  exact ⟨halike, halone, by decide +kernel, (compile_eq_of_alike halike halone).symm⟩

end TemplateProjection.Outline
