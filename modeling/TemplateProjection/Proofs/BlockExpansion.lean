import TemplateProjection.Proofs.ElementHeads
import TemplateProjection.Proofs.OutlineLines
import TemplateProjection.Proofs.TextBlocks

/-!
Elements in a chain on one line, `a: b: c`. A chain means its elements one inside the other, each on
a line of its own; but the block below the chain belongs to the first of them, beside the second.
-/
namespace TemplateProjection.Outline

variable {e body : Text} {lines : List Line} {n : Nat}

/-- What may follow the last head of a line: nothing, the `.` of a text block, or text. -/
inductive Ending where
  | bare
  | dot
  | inline (text : Text) (oneLine : '\n' ∉ text)

def Ending.text : Ending → Text
  | .bare => []
  | .dot => ['.']
  | .inline text _ => ' ' :: text

theorem Ending.not_mem_text (ending : Ending) : '\n' ∉ ending.text := by
  cases ending with
  | bare => decide
  | dot => decide
  | inline text oneLine => simpa [Ending.text] using oneLine

/-- What is left of an ending when the blanks at the end of its line are gone. -/
def EndsLine (e : Text) : Prop := e = ['.'] ∨ ∀ c ∈ e.head?, c = ' '

theorem Ending.endsLine (ending : Ending) : EndsLine ending.text.trimEnd := by
  cases ending with
  | bare => exact Or.inr (by rintro c ⟨⟩)
  | dot => exact Or.inl (by decide)
  | inline text oneLine => exact Or.inr fun c hc => Text.head_of_mem_head?_trimEnd hc

theorem EndsLine.endsHead (he : EndsLine e) : EndsHead e := by
  rcases he with rfl | hspace
  · exact .dot
  · cases e with
    | nil => exact .nil
    | cons c t =>
      rw [hspace c rfl]
      exact .space t

theorem readElement_colon {content name rest : Text} {attributes : List Attribute}
    {below : List Line} (h : readHead content lines = ⟨name, attributes, ':' :: rest, below⟩) :
    readElement content lines =
      (⟨⟨name, attributes, false⟩,
        [.element (readElement rest.trimStart below).1.tag
          (readElement rest.trimStart below).1.children], false⟩,
        (readElement rest.trimStart below).2) := by
  rw [readElement]
  split
  · next heq => simp [h] at heq
  · next heq => simp [h] at heq
  · next heq =>
    rw [h] at heq
    cases heq
    simp only [h]
  · next hcolon => exact absurd (by rw [h]) (hcolon rest)

/-- An element that is alone on its line. -/
theorem readElement_text (h : HeadForm) (he : EndsLine e) (lines : List Line) :
    readElement (h.text ++ e) lines = (⟨h.tag, inlineText e, e == ['.']⟩, lines) := by
  have hhead := h.readHead_text he.endsHead lines
  rcases he with rfl | hspace
  · rw [readElement]
    split
    · rw [hhead]
      rfl
    · next heq => simp [hhead] at heq
    · next heq => simp [hhead] at heq
    · next hdot _ _ => exact absurd (by rw [hhead]) hdot
  · have hdot : (e == ['.']) = false := by
      rw [beq_eq_false_iff_ne]
      rintro rfl
      exact absurd (hspace '.' rfl) (by decide)
    rw [readElement_head hhead hspace, hdot]
    rfl

/-- The heads of a chain, with `: ` between them and an ending after the last. -/
def chainText (e : Text) : HeadForm → List HeadForm → Text
  | h, [] => h.text ++ e
  | h, h' :: hs => h.text ++ ':' :: ' ' :: chainText e h' hs

/-- What the heads after the first put into the element of the first. -/
def chainItems (e : Text) : List HeadForm → List Item
  | [] => inlineText e
  | h :: hs => [.element h.tag (chainItems e hs)]

theorem chainItems_dot (hs : List HeadForm) : chainItems ['.'] hs = chainItems [] hs := by
  induction hs with
  | nil => rfl
  | cons h hs ih => rw [chainItems, chainItems, ih]

theorem chainText_exists_cons (e : Text) (h : HeadForm) (hs : List HeadForm) :
    ∃ c t, chainText e h hs = c :: t ∧ isHeadStart c ∧ (c = '.' → t ≠ []) := by
  obtain ⟨u, hu⟩ : ∃ u, chainText e h hs = h.text ++ u := by
    cases hs with
    | nil => exact ⟨e, rfl⟩
    | cons h' hs => exact ⟨_, rfl⟩
  obtain ⟨c, t, htext, hc, hdot⟩ := h.exists_cons
  refine ⟨c, t ++ u, by rw [hu, htext, List.cons_append], hc, fun h => ?_⟩
  exact List.append_ne_nil_of_left_ne_nil (hdot h) u

/-- The last element of a chain may have text on the line. The mark of a text block says nothing
unless the chain is a single element. -/
theorem readElement_chain (he : EndsLine e) (h : HeadForm) (hs : List HeadForm)
    (lines : List Line) :
    readElement (chainText e h hs) lines =
      (⟨h.tag, chainItems e hs, hs.isEmpty && e == ['.']⟩, lines) := by
  induction hs generalizing h with
  | nil => exact readElement_text h he lines
  | cons h' hs ih =>
    have hblank : Text.trimStart (' ' :: chainText e h' hs) = chainText e h' hs := by
      obtain ⟨c, t, htext, hc, -⟩ := chainText_exists_cons e h' hs
      rw [Text.trimStart, List.dropWhile_cons_of_pos (by decide), htext,
        List.dropWhile_cons_of_neg (not_isBlank_of_isHeadStart hc)]
    rw [chainText, readElement_colon (h.readHead_text (.colon _) lines), hblank, ih]
    rfl

/-- Blanks at the end of a chain come from its ending. -/
theorem trimEnd_chainText (e : Text) (h : HeadForm) (hs : List HeadForm) :
    (chainText e h hs).trimEnd = chainText e.trimEnd h hs := by
  induction hs generalizing h with
  | nil => exact Text.trimEnd_append_of_last e h.not_isBlank_last
  | cons h' hs ih =>
    have hsplit : ∀ u, h.text ++ ':' :: ' ' :: u = h.text ++ [':', ' '] ++ u := by
      intro u
      rw [List.append_assoc]
      rfl
    obtain ⟨c, t, htext, hc, -⟩ := chainText_exists_cons e h' hs
    have hsolid : ∃ d ∈ chainText e h' hs, ¬ isBlank d :=
      ⟨c, by rw [htext]; exact List.mem_cons_self, not_isBlank_of_isHeadStart hc⟩
    rw [chainText, hsplit, Text.trimEnd_append _ hsolid, ih, ← hsplit, chainText]

theorem not_mem_chainText (he : '\n' ∉ e) (h : HeadForm) (hs : List HeadForm) :
    '\n' ∉ chainText e h hs := by
  induction hs generalizing h with
  | nil => exact fun hmem => (List.mem_append.1 hmem).elim h.not_mem_text he
  | cons h' hs ih => simp [chainText, h.not_mem_text, ih h']

/-- A head on a line of its own. -/
structure Level where
  indentation : Text
  head : HeadForm
  blank : ∀ c ∈ indentation, isBlank c
  oneLine : '\n' ∉ indentation

def Level.width (l : Level) : Nat := l.indentation.byteLength

/-- Heads below each other, with an ending after the last. -/
def nestedText (e : Text) : Level → List Level → Text
  | l, [] => l.indentation ++ (l.head.text ++ e)
  | l, l' :: ls => l.indentation ++ l.head.text ++ '\n' :: nestedText e l' ls

def nestedLines (e : Text) : Level → List Level → List Line
  | l, [] => [⟨l.indentation, l.head.text ++ e⟩]
  | l, l' :: ls => ⟨l.indentation, l.head.text⟩ :: nestedLines e l' ls

theorem linesOf_append_feed {l : Text} (h : '\n' ∉ l) (t : Text) :
    linesOf (l ++ '\n' :: t) = Line.ofText l :: linesOf t := by
  have hsplit : Text.split '\n' (l ++ '\n' :: t) = l :: Text.split '\n' t := by
    rw [Text.split_append_cons, Text.split_eq_singleton h, List.singleton_append]
  have hne := Text.split_ne_nil '\n' t
  simp only [linesOf, Text.lines, hsplit, List.dropLast_cons_of_ne_nil hne, List.map_cons,
    List.cons_append, List.getLast?_cons_of_ne_nil hne, Line.ofText_return]

theorem Level.ofText_chain (l : Level) (e : Text) (hs : List HeadForm) :
    Line.ofText (l.indentation ++ chainText e l.head hs) =
      ⟨l.indentation, chainText e.trimEnd l.head hs⟩ := by
  obtain ⟨c, t, htext, hc, -⟩ := chainText_exists_cons e l.head hs
  have hblank := not_isBlank_of_isHeadStart hc
  rw [← trimEnd_chainText, htext, Line.ofText_blank_append l.blank hblank, Text.trimEnd_cons hblank]

theorem linesOf_chain (he : '\n' ∉ e) (l : Level) (hs : List HeadForm) (body : Text) :
    linesOf (l.indentation ++ chainText e l.head hs ++ '\n' :: body) =
      ⟨l.indentation, chainText e.trimEnd l.head hs⟩ :: linesOf body := by
  have hfeed : '\n' ∉ l.indentation ++ chainText e l.head hs :=
    fun hmem => (List.mem_append.1 hmem).elim l.oneLine (not_mem_chainText he l.head hs)
  rw [linesOf_append_feed hfeed, l.ofText_chain]

theorem linesOf_nested (he : '\n' ∉ e) (l : Level) (ls : List Level) (body : Text) :
    linesOf (nestedText e l ls ++ '\n' :: body) = nestedLines e.trimEnd l ls ++ linesOf body := by
  induction ls generalizing l with
  | nil => exact linesOf_chain he l [] body
  | cons l' ls ih =>
    have hline := linesOf_chain (List.not_mem_nil : '\n' ∉ []) l []
      (nestedText e l' ls ++ '\n' :: body)
    have hnil : Text.trimEnd [] = [] := rfl
    simp only [chainText, hnil, List.append_nil] at hline
    rw [nestedText, List.append_assoc, List.cons_append, hline, ih]
    rfl

/-- The first line that is not empty, if there is one, is indented by at most `n`. -/
def StartsWithin (n : Nat) (lines : List Line) : Prop :=
  ∀ line ∈ lines.find? (!·.isEmpty), line.indent ≤ n

/-- Nothing is below a line if the next one is not deeper. -/
theorem StartsWithin.blockLines_eq_nil (h : StartsWithin n lines) : blockLines n lines = [] := by
  by_contra hne
  have hlast : ¬ ((blockLines n lines).getLast hne).isEmpty := List.rdropWhile_last_not _ _ hne
  have hsome : ((blockLines n lines).find? (!·.isEmpty)).isSome := by
    rw [List.find?_isSome]
    exact ⟨_, List.getLast_mem hne, by simpa using hlast⟩
  obtain ⟨line, hline⟩ := Option.isSome_iff_exists.1 hsome
  have hfirst : lines.find? (!·.isEmpty) = some line := by
    rw [← blockLines_append_afterBlock n lines, List.find?_append, hline, Option.some_or]
  have hbelow := isBelow_of_mem_blockLines (List.mem_of_find?_eq_some hline)
  have hsolid : line.isEmpty = false := by simpa using List.find?_some hline
  have hle := h line hfirst
  simp only [Line.isBelow, hsolid, Bool.false_or, decide_eq_true_eq] at hbelow
  omega

/-- An entry is indented as its line is. A line that is no entry takes its block with it. -/
theorem readEntry_cases (line : Line) (lines : List Line) :
    (∃ item, (readEntry line lines).1 = some ⟨line.indent, item⟩) ∨
      readEntry line lines = (none, afterBlock line.indent lines) := by
  simp only [readEntry]
  split
  · exact Or.inr rfl
  · exact Or.inl ⟨_, rfl⟩
  · exact Or.inl ⟨_, rfl⟩
  · exact Or.inl ⟨_, rfl⟩
  · exact Or.inl ⟨_, rfl⟩
  · exact Or.inl ⟨_, rfl⟩
  · simp only [elementEntry]
    split
    · exact Or.inl ⟨_, rfl⟩
    · exact Or.inl ⟨_, rfl⟩

theorem StartsWithin.entries (h : StartsWithin n lines) :
    ∀ entry ∈ (entries lines).head?, entry.indent ≤ n := by
  induction lines using entries.induct with
  | case1 =>
    intro entry hentry
    simp [Outline.entries] at hentry
  | case2 line lines hempty ih =>
    rw [Outline.entries, if_pos hempty]
    apply ih
    rw [StartsWithin, List.find?_cons_of_neg (by simpa using hempty)] at h
    exact h
  | case3 line lines hsolid _ ih =>
    have hsolid : line.isEmpty = false := Bool.eq_false_iff.2 hsolid
    have hline : line.indent ≤ n := by
      apply h
      rw [List.find?_cons, hsolid]
      rfl
    rw [entries_cons hsolid]
    rcases readEntry_cases line lines with ⟨item, hitem⟩ | hnone
    · rw [hitem]
      rintro entry ⟨⟩
      exact hline
    · -- A silent comment is no entry; the lines after its block are not deeper than it is.
      rw [hnone] at ih ⊢
      apply ih
      intro next hnext
      have hnot := not_isBelow_afterBlock line.indent lines next hnext
      simp only [Line.isBelow, Bool.or_eq_true, decide_eq_true_eq, not_or] at hnot
      omega

/-- Where nothing is below, the mark of a text block makes the entry a leaf and no more. -/
theorem StartsWithin.elementEntry_eq (h : StartsWithin n lines) (element : ElementLine) :
    elementEntry n element lines =
      (⟨n, if element.textBelow then .leaf (.element element.tag element.children)
        else .parent element.tag element.children⟩, lines) := by
  have htext : blockText n lines = [] := by
    rw [blockText, h.blockLines_eq_nil]
    rfl
  have hafter : afterBlock n lines = lines := by
    rw [afterBlock, h.blockLines_eq_nil]
    rfl
  rw [elementEntry, htext, hafter]
  cases element.textBelow with
  | false => rfl
  | true => simp

theorem Level.entries_chain (l : Level) (he : EndsLine e) (hs : List HeadForm)
    (lines : List Line) :
    let entry := elementEntry l.width ⟨l.head.tag, chainItems e hs, hs.isEmpty && e == ['.']⟩ lines
    entries (⟨l.indentation, chainText e l.head hs⟩ :: lines) = entry.1 :: entries entry.2 := by
  obtain ⟨c, t, htext, hc, hdot⟩ := chainText_exists_cons e l.head hs
  have hsolid : (Line.mk l.indentation (chainText e l.head hs)).isEmpty = false := by
    rw [Line.isEmpty, htext, List.isEmpty_cons]
  have hne : chainText e l.head hs ≠ ['.'] := by
    intro heq
    obtain ⟨rfl, rfl⟩ := List.cons.inj (htext.symm.trans heq)
    exact hdot rfl rfl
  rw [entries_cons hsolid, readEntry_of_ne htext (ne_of_isHeadStart hc (by decide))
    (ne_of_isHeadStart hc (by decide)) (ne_of_isHeadStart hc (by decide)) hne,
    readElement_chain he]
  rfl

theorem Level.entries_head (l : Level) (lines : List Line) :
    entries (⟨l.indentation, l.head.text⟩ :: lines) =
      ⟨l.width, .parent l.head.tag []⟩ :: entries lines := by
  have hnil : EndsLine [] := Or.inr (by rintro c ⟨⟩)
  have hentries := l.entries_chain hnil [] lines
  simp only [chainText, List.append_nil] at hentries
  exact hentries

/-- The entries of heads below each other, if nothing is below the last. -/
def levelEntries (e : Text) : Level → List Level → List Entry
  | l, [] =>
    [⟨l.width, if e == ['.'] then .leaf (.element l.head.tag (inlineText e))
      else .parent l.head.tag (inlineText e)⟩]
  | l, l' :: ls => ⟨l.width, .parent l.head.tag []⟩ :: levelEntries e l' ls

theorem entries_nestedLines (he : EndsLine e) {l : Level} {ls : List Level}
    (hdeeper : (l :: ls).Pairwise (·.width < ·.width)) (h : StartsWithin l.width lines) :
    entries (nestedLines e l ls ++ lines) = levelEntries e l ls ++ entries lines := by
  induction ls generalizing l with
  | nil =>
    have hentries := l.entries_chain he [] lines
    rw [h.elementEntry_eq] at hentries
    exact hentries
  | cons l' ls ih =>
    obtain ⟨hall, htail⟩ := List.pairwise_cons.1 hdeeper
    have hbelow : StartsWithin l'.width lines := fun line hline =>
      Nat.le_trans (h line hline) (Nat.le_of_lt (hall l' List.mem_cons_self))
    rw [nestedLines, List.cons_append, l.entries_head, ih htail hbelow]
    rfl

theorem width_le_of_mem_levelEntries {l : Level} {ls : List Level}
    (hdeeper : (l :: ls).Pairwise (·.width < ·.width)) :
    ∀ entry ∈ levelEntries e l ls, l.width ≤ entry.indent := by
  induction ls generalizing l with
  | nil =>
    intro entry hentry
    rw [List.mem_singleton.1 hentry]
  | cons l' ls ih =>
    obtain ⟨hall, htail⟩ := List.pairwise_cons.1 hdeeper
    intro entry hentry
    rcases List.mem_cons.1 hentry with rfl | hentry
    · exact Nat.le_refl _
    · exact Nat.le_trans (Nat.le_of_lt (hall l' List.mem_cons_self)) (ih htail entry hentry)

theorem lt_of_mem_levelEntries {l l' : Level} {ls : List Level}
    (hdeeper : (l :: l' :: ls).Pairwise (·.width < ·.width)) :
    ∀ entry ∈ levelEntries e l' ls, l.width < entry.indent := by
  obtain ⟨hall, htail⟩ := List.pairwise_cons.1 hdeeper
  intro entry hentry
  exact Nat.lt_of_lt_of_le (hall l' List.mem_cons_self)
    (width_le_of_mem_levelEntries htail entry hentry)

theorem nest_parent {tag : Tag} {children : List Item} {inner es : List Entry}
    (hinner : ∀ entry ∈ inner, n < entry.indent) (hes : ∀ entry ∈ es.head?, entry.indent ≤ n) :
    nest (⟨n, .parent tag children⟩ :: (inner ++ es)) =
      .element tag (children ++ nest inner) :: nest es := by
  have hdeep : ∀ entry ∈ inner, decide (n < entry.indent) :=
    fun entry hentry => decide_eq_true (hinner entry hentry)
  have hstop : ∀ entry ∈ es.head?, ¬ decide (n < entry.indent) := by
    intro entry hentry
    simpa using hes entry hentry
  rw [nest, takeWhile_append_of_head hdeep hstop, dropWhile_append_of_head hdeep hstop]

/-- Heads below each other nest as a chain of them does, if what follows is not deeper than the
first. -/
theorem nest_levelEntries {l : Level} {ls : List Level} {es : List Entry}
    (hdeeper : (l :: ls).Pairwise (·.width < ·.width))
    (hes : ∀ entry ∈ es.head?, entry.indent ≤ l.width) :
    nest (levelEntries e l ls ++ es) =
      .element l.head.tag (chainItems e (ls.map Level.head)) :: nest es := by
  induction ls generalizing l es with
  | nil =>
    rw [levelEntries, List.singleton_append]
    cases e == ['.'] with
    | true => rw [if_pos rfl, nest, List.map_nil, chainItems]
    | false =>
      rw [if_neg Bool.false_ne_true, ← List.nil_append es, nest_parent (List.forall_mem_nil _) hes,
        nest, List.append_nil, List.map_nil, chainItems, List.nil_append]
  | cons l' ls ih =>
    have htail := (List.pairwise_cons.1 hdeeper).2
    -- inside the first element nothing follows the others
    have hchild : nest (levelEntries e l' ls) =
        [.element l'.head.tag (chainItems e (ls.map Level.head))] := by
      rw [← List.append_nil (levelEntries e l' ls), ih htail (by rintro entry ⟨⟩), nest]
    rw [levelEntries, List.cons_append, nest_parent (lt_of_mem_levelEntries hdeeper) hes, hchild]
    rfl

/-- The chain of elements on one line, then more lines. -/
def chained (ending : Ending) (l : Level) (ls : List Level) (body : Text) : Text :=
  l.indentation ++ chainText ending.text l.head (ls.map Level.head) ++ '\n' :: body

/-- The elements on lines of their own, then more lines. -/
def nested (ending : Ending) (l : Level) (ls : List Level) (body : Text) : Text :=
  nestedText ending.text l ls ++ '\n' :: body

theorem parse_chained (ending : Ending) (l l' : Level) (ls : List Level) (body : Text) :
    parse (chained ending l (l' :: ls) body) =
      nest (⟨l.width, .parent l.head.tag
        (chainItems ending.text.trimEnd (l'.head :: ls.map Level.head))⟩ ::
          entries (linesOf body)) := by
  have hentries := l.entries_chain ending.endsLine ((l' :: ls).map Level.head) (linesOf body)
  rw [parse, chained, linesOf_chain ending.not_mem_text, hentries]
  rfl

theorem parse_nested {ending : Ending} {l l' : Level} {ls : List Level} {body : Text}
    (hdeeper : (l :: l' :: ls).Pairwise (·.width < ·.width))
    (hbody : StartsWithin l'.width (linesOf body)) :
    parse (nested ending l (l' :: ls) body) =
      nest (⟨l.width, .parent l.head.tag
        (chainItems ending.text.trimEnd (l'.head :: ls.map Level.head))⟩ ::
          entries (linesOf body)) := by
  have htail := (List.pairwise_cons.1 hdeeper).2
  have hinner : ∀ entry ∈ levelEntries ending.text.trimEnd l' ls,
      decide (l.width < entry.indent) :=
    fun entry hentry => decide_eq_true (lt_of_mem_levelEntries hdeeper entry hentry)
  -- Of the entries that follow, the deeper ones are children of the first element. The bound on the
  -- body keeps them out of the second.
  have hfirst : ∀ entry ∈ ((entries (linesOf body)).takeWhile (l.width < ·.indent)).head?,
      entry.indent ≤ l'.width := by
    intro entry hentry
    apply hbody.entries
    rw [List.head?_takeWhile] at hentry
    exact (Option.mem_filter_iff.1 hentry).1
  rw [parse, nested, linesOf_nested ending.not_mem_text, nestedLines, List.cons_append,
    l.entries_head, entries_nestedLines ending.endsLine htail hbody, nest, nest,
    List.takeWhile_append_of_pos hinner, List.dropWhile_append_of_pos hinner,
    nest_levelEntries htail hfirst]
  rfl

/-- A chain of elements on one line means the elements below each other, with the lines that follow
beside the second element, not below the last. The mark of a text block at the end of a chain means
nothing. -/
theorem compile_chained {first second : Level} {ls : List Level} {body : Text} (ending : Ending)
    (hdeeper : (first :: second :: ls).Pairwise (·.width < ·.width))
    (hbody : StartsWithin second.width (linesOf body)) :
    compile (chained ending first (second :: ls) body) =
        compile (nested ending first (second :: ls) body) ∧
      compile (chained .dot first (second :: ls) body) =
        compile (chained .bare first (second :: ls) body) := by
  constructor
  · rw [compile, compile, parse_chained, parse_nested hdeeper hbody]
  · have hdot : chainItems (Text.trimEnd Ending.dot.text) (second.head :: ls.map Level.head) =
        chainItems (Text.trimEnd Ending.bare.text) (second.head :: ls.map Level.head) :=
      chainItems_dot _
    rw [compile, compile, parse_chained, parse_chained, hdot]

/-- The next item of the list stands beside the first, under the list. -/
theorem compile_chained_menu :
    let menu : Level :=
      ⟨[], ⟨"ul".toList, [.className "menu".toList], none, by decide, by decide, by decide⟩,
        List.all_eq_true.1 rfl, by decide⟩
    let item : Level :=
      ⟨"  ".toList, ⟨"li".toList, [.id "first".toList], none, by decide, by decide, by decide⟩,
        List.all_eq_true.1 (by decide), by decide⟩
    let link : Level :=
      ⟨"    ".toList, ⟨"a".toList, [],
          some ⟨"href=\"(\"".toList, ["up".toList], by decide, by decide, by decide⟩,
          by decide, by decide, by decide⟩,
        List.all_eq_true.1 (by decide), by decide⟩
    let body := "\n  li next\np".toList
    let ending := Ending.inline "Go: on".toList (by decide)
    let line := chained ending menu [item, link] body
    [menu, item, link].Pairwise (·.width < ·.width) ∧ StartsWithin item.width (linesOf body) ∧
      line = "ul.menu: li#first: a(href=\"(\").up Go: on\n\n  li next\np".toList ∧
      compile line = compile (nested ending menu [item, link] body) := by
  intro menu item link body ending line
  have hdeeper : [menu, item, link].Pairwise (·.width < ·.width) := by decide +kernel
  have hfirst : (linesOf body).find? (!·.isEmpty) = some ⟨"  ".toList, "li next".toList⟩ := by
    decide +kernel
  have hbody : StartsWithin item.width (linesOf body) := by
    intro next hnext
    rw [hfirst] at hnext
    cases hnext
    decide
  exact ⟨hdeeper, hbody, by decide +kernel, (compile_chained ending hdeeper hbody).1⟩

/-- The block below the chain does not go into its last element. -/
theorem compile_chained_block :
    compile "ul: li\n  span".toList = "<ul><li></li><span></span></ul>".toList ∧
      compile "ul\n  li\n    span".toList = "<ul><li><span></span></li></ul>".toList := by
  decide +kernel

end TemplateProjection.Outline
