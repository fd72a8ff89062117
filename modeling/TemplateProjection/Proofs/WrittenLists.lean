import TemplateProjection.Proofs.BlockExpansion

/-!
Attribute lists as an author writes them: names, some with a quoted value, and between them commas,
blanks and line feeds as one likes. An element with such a list is compiled to the element with just
these attributes. Lines lose the blanks at their ends before the list is read, which touches no more
than the separators.
-/
namespace TemplateProjection.Outline

/-- What may stand between attributes. -/
def isSeparator (c : Char) : Bool := c == ',' || c == ' ' || c == '\t' || c == '\n'

/-- Printable characters that have no meaning of their own in a list. -/
def isListNameChar (c : Char) : Bool :=
  0x21 ≤ c.toNat && c.toNat ≤ 0x7e && !"\"'\x60()=,!".toList.contains c

/-- A value between two equal quotes. -/
structure QuotedValue where
  quote : Char
  text : Text
  isQuote : quote ∈ "\"'\x60".toList
  unquoted : quote ∉ text
  unescaped : '\\' ∉ text
  oneLine : '\n' ∉ text

/-- An attribute as it is written in a list. One without a value is a flag. -/
structure ListedAttribute where
  name : Text
  value : Option QuotedValue
  named : name ≠ []
  nameChars : name.all isListNameChar

/-- Attributes with the separators that follow each. Only after the last there may be none. -/
structure SeparatedList where
  lead : Text
  items : List (ListedAttribute × Text)
  leadChars : lead.all isSeparator
  afterChars : ∀ item ∈ items, item.2.all isSeparator
  apart : items.IsChain fun item _ => item.2 ≠ []

def QuotedValue.written (v : QuotedValue) : Text := v.quote :: (v.text ++ [v.quote])

namespace ListedAttribute

def written (a : ListedAttribute) : Text := a.name ++ a.value.elim [] ('=' :: ·.written)

/-- The attribute in an open tag: values are escaped and stand in double quotes. -/
def markup (a : ListedAttribute) : Text :=
  a.name ++ a.value.elim [] fun v => "=\"".toList ++ Entity.escape v.text ++ ['"']

/-- The attribute that the list is read to. -/
def toAttribute (a : ListedAttribute) : Attribute := ⟨a.name, a.value.map (·.text), false⟩

theorem render_toAttribute (a : ListedAttribute) : a.toAttribute.render = a.markup := by
  cases h : a.value <;> simp [toAttribute, Attribute.render, markup, h]

end ListedAttribute

/-- Attributes one after another, each with its separators. -/
def itemsText (items : List (ListedAttribute × Text)) : Text :=
  items.flatMap fun item => item.1.written ++ item.2

def SeparatedList.text (l : SeparatedList) : Text := l.lead ++ itemsText l.items

variable {c d : Char} {s t u name sep rest inside : Text} {a : ListedAttribute}
  {items : List (ListedAttribute × Text)} {lines : List Line}

theorem itemsText_cons (item : ListedAttribute × Text) (items : List (ListedAttribute × Text)) :
    itemsText (item :: items) = item.1.written ++ (item.2 ++ itemsText items) := by
  rw [itemsText, List.flatMap_cons, List.append_assoc]
  rfl

theorem isSeparator_cases (h : isSeparator c) : c = ',' ∨ c = ' ' ∨ c = '\t' ∨ c = '\n' := by
  simpa [isSeparator, or_assoc] using h

theorem ne_of_isListNameChar (h : isListNameChar c) (hd : isListNameChar d = false) : c ≠ d := by
  rintro rfl
  rw [h] at hd
  cases hd

theorem isBlank_of_isListNameChar (h : isListNameChar c) : isBlank c = false := by
  have hascii : c.toNat < 128 := by
    simp only [isListNameChar, Bool.and_eq_true, decide_eq_true_eq] at h
    omega
  have hblank := ascii_imp isListNameChar (fun c => !isBlank c) (by decide) hascii h
  simpa using hblank

/-! Lines that lose the blanks at their ends. -/

/-- The text with every line cut after its last character that is not blank. -/
def trimLineEnds (t : Text) : Text := Text.join ['\n'] ((Text.split '\n' t).map Text.trimEnd)

theorem trimLineEnds_append_stack (hs : '\n' ∉ s) {ls : List Text} (hls : ∀ l ∈ ls, '\n' ∉ l) :
    trimLineEnds (s ++ Text.stack ls) = s.trimEnd ++ Text.stack (ls.map Text.trimEnd) := by
  rw [trimLineEnds, Text.split_stack, Text.split_eq_singleton hs, Text.flatMap_split hls,
    List.singleton_append, List.map_cons, Text.join_eq_stack]

theorem trimLineEnds_solid_append (hs : '\n' ∉ s) (hlast : ∀ c ∈ s.getLast?, ¬ isBlank c)
    (t : Text) : trimLineEnds (s ++ t) = s ++ trimLineEnds t := by
  obtain ⟨l, ls, rfl, hl, hls⟩ := Text.exists_eq_stack t
  have hline : '\n' ∉ s ++ l := fun hmem => (List.mem_append.1 hmem).elim hs hl
  rw [← List.append_assoc, trimLineEnds_append_stack hline hls, trimLineEnds_append_stack hl hls,
    Text.trimEnd_append_of_last l hlast, List.append_assoc]

theorem trimLineEnds_feed (t : Text) : trimLineEnds ('\n' :: t) = '\n' :: trimLineEnds t := by
  obtain ⟨l, ls, rfl, hl, hls⟩ := Text.exists_eq_stack t
  have hstack : '\n' :: (l ++ Text.stack ls) = [] ++ Text.stack (l :: ls) := by simp
  rw [hstack, trimLineEnds_append_stack (by simp) (List.forall_mem_cons.2 ⟨hl, hls⟩),
    trimLineEnds_append_stack hl hls]
  rfl

/-- A blank at the end of its line is dropped, any other is kept. -/
theorem trimLineEnds_cons (hc : c ≠ '\n') (t : Text) :
    trimLineEnds (c :: t) = trimLineEnds t ∨ trimLineEnds (c :: t) = c :: trimLineEnds t := by
  obtain ⟨l, ls, rfl, hl, hls⟩ := Text.exists_eq_stack t
  have hline : '\n' ∉ c :: l := fun hmem => (List.mem_cons.1 hmem).elim (hc ·.symm) hl
  rw [← List.cons_append, trimLineEnds_append_stack hline hls, trimLineEnds_append_stack hl hls]
  by_cases hsolid : ∃ d ∈ l, ¬ isBlank d
  · right
    rw [← List.singleton_append, Text.trimEnd_append [c] hsolid]
    rfl
  · have hblank : ∀ d ∈ l, isBlank d := by simpa using hsolid
    by_cases hcblank : isBlank c
    · left
      rw [Text.trimEnd_of_blank (List.forall_mem_cons.2 ⟨hcblank, hblank⟩),
        Text.trimEnd_of_blank hblank]
    · right
      rw [Text.trimEnd_cons hcblank, List.cons_append]

theorem trimLineEnds_cons_solid (hc : c ≠ '\n') (hd : ¬ isBlank d) (t : Text) :
    trimLineEnds (c :: d :: t) = c :: trimLineEnds (d :: t) := by
  have hfeed : '\n' ≠ d := by
    rintro rfl
    exact hd (by decide)
  have hpair := trimLineEnds_solid_append (s := [c, d]) (by simp [hc.symm, hfeed])
    (by simpa using hd) t
  have hsingle := trimLineEnds_solid_append (s := [d]) (by simp [hfeed]) (by simpa using hd) t
  rw [List.singleton_append] at hsingle
  rw [hsingle]
  exact hpair

/-- Separators stay separators, and before a character that is not blank some are left. -/
theorem trimLineEnds_separators (hsep : sep.all isSeparator) (hd : ¬ isBlank d) (t : Text) :
    ∃ sep', sep'.all isSeparator ∧ (sep ≠ [] → sep' ≠ []) ∧
      trimLineEnds (sep ++ d :: t) = sep' ++ trimLineEnds (d :: t) := by
  induction sep with
  | nil => exact ⟨[], rfl, id, rfl⟩
  | cons c sep ih =>
    obtain ⟨hc, hsep⟩ : isSeparator c ∧ sep.all isSeparator := by simpa using hsep
    obtain ⟨sep', hsep', hne, htrim⟩ := ih hsep
    have hall : (c :: sep').all isSeparator := by simpa [hc] using hsep'
    by_cases hkeep : trimLineEnds (c :: (sep ++ d :: t)) = c :: trimLineEnds (sep ++ d :: t)
    · exact ⟨c :: sep', hall, fun _ => List.cons_ne_nil _ _, by
        rw [List.cons_append, hkeep, htrim, List.cons_append]⟩
    · -- Only a blank with a separator after it can be the end of its line.
      have hfeed : c ≠ '\n' := by
        rintro rfl
        exact hkeep (trimLineEnds_feed _)
      have hmore : sep ≠ [] := by
        rintro rfl
        exact hkeep (trimLineEnds_cons_solid hfeed hd t)
      have hdrop := (trimLineEnds_cons hfeed (sep ++ d :: t)).resolve_right hkeep
      exact ⟨sep', hsep', fun _ => hne hmore, by rw [List.cons_append, hdrop, htrim]⟩

namespace ListedAttribute

theorem isListNameChar_of_mem (a : ListedAttribute) : ∀ c ∈ a.name, isListNameChar c :=
  List.all_eq_true.1 a.nameChars

theorem written_cons (a : ListedAttribute) : ∃ c t, a.written = c :: t ∧ isListNameChar c := by
  obtain ⟨c, name, hname⟩ := List.exists_cons_of_ne_nil a.named
  refine ⟨c, name ++ a.value.elim [] ('=' :: ·.written), by rw [written, hname]; rfl, ?_⟩
  exact a.isListNameChar_of_mem c (by rw [hname]; exact List.mem_cons_self)

theorem not_mem_written (a : ListedAttribute) : '\n' ∉ a.written := by
  have hname : '\n' ∉ a.name := fun hmem => absurd (a.isListNameChar_of_mem _ hmem) (by decide)
  cases hvalue : a.value with
  | none => simpa [written, hvalue] using hname
  | some v =>
    have hquote : '\n' ≠ v.quote := by
      intro heq
      exact absurd (heq ▸ v.isQuote) (by decide)
    simp [written, QuotedValue.written, hvalue, hname, hquote, v.oneLine]

theorem not_isBlank_last (a : ListedAttribute) : ∀ c ∈ a.written.getLast?, ¬ isBlank c := by
  intro c hc
  cases hvalue : a.value with
  | none =>
    rw [written, hvalue, Option.elim_none, List.append_nil] at hc
    have hname := a.isListNameChar_of_mem c (List.mem_of_getLast? hc)
    simp [isBlank_of_isListNameChar hname]
  | some v =>
    have hlast : a.written = (a.name ++ '=' :: v.quote :: v.text) ++ [v.quote] := by
      simp [written, QuotedValue.written, hvalue]
    rw [hlast, List.getLast?_concat] at hc
    cases hc
    have hblank : "\"'\x60".toList.all (!isBlank ·) := by decide
    simpa using List.all_eq_true.1 hblank _ v.isQuote

end ListedAttribute

theorem itemsText_append_cons (items : List (ListedAttribute × Text)) :
    ∃ c t, itemsText items ++ [')'] = c :: t ∧ ¬ isBlank c := by
  cases items with
  | nil => exact ⟨')', [], rfl, by decide⟩
  | cons item items =>
    obtain ⟨c, t, hwritten, hc⟩ := item.1.written_cons
    have hblank : ¬ isBlank c := by simp [isBlank_of_isListNameChar hc]
    refine ⟨c, t ++ (item.2 ++ itemsText items) ++ [')'], ?_, hblank⟩
    rw [itemsText_cons, hwritten]
    rfl

/-- Without the blanks at the ends of its lines, a list has the same attributes. -/
theorem exists_trimLineEnds_items (hafter : ∀ item ∈ items, item.2.all isSeparator)
    (hapart : items.IsChain fun item _ => item.2 ≠ []) :
    ∃ items' : List (ListedAttribute × Text),
      (∀ item ∈ items', item.2.all isSeparator) ∧ (items'.IsChain fun item _ => item.2 ≠ []) ∧
      items'.map Prod.fst = items.map Prod.fst ∧
      trimLineEnds (itemsText items ++ [')']) = itemsText items' ++ [')'] := by
  induction items with
  | nil => exact ⟨[], by simp, .nil, rfl, rfl⟩
  | cons item items ih =>
    obtain ⟨hsep, hafter⟩ := List.forall_mem_cons.1 hafter
    obtain ⟨hhead, hapart⟩ := List.isChain_cons.1 hapart
    obtain ⟨items', hafter', hapart', hsame, htrim⟩ := ih hafter hapart
    obtain ⟨c, t, hcons, hc⟩ := itemsText_append_cons items
    obtain ⟨sep', hsep', hne, hseparators⟩ := trimLineEnds_separators hsep hc t
    refine ⟨(item.1, sep') :: items', List.forall_mem_cons.2 ⟨hsep', hafter'⟩,
      List.isChain_cons.2 ⟨fun next hnext => hne ?_, hapart'⟩, ?_, ?_⟩
    · cases items with
      | cons next' items => exact hhead next' rfl
      | nil =>
        rw [List.map_nil, List.map_eq_nil_iff] at hsame
        rw [hsame] at hnext
        cases hnext
    · rw [List.map_cons, List.map_cons, hsame]
    · rw [itemsText_cons, List.append_assoc, List.append_assoc,
        trimLineEnds_solid_append item.1.not_mem_written item.1.not_isBlank_last, hcons,
        hseparators, ← hcons, htrim, itemsText_cons, List.append_assoc, List.append_assoc]

theorem SeparatedList.exists_trimLineEnds (l : SeparatedList) :
    ∃ l' : SeparatedList, l'.items.map Prod.fst = l.items.map Prod.fst ∧
      trimLineEnds (l.text ++ [')']) = l'.text ++ [')'] := by
  obtain ⟨items', hafter, hapart, hsame, htrim⟩ := exists_trimLineEnds_items l.afterChars l.apart
  obtain ⟨c, t, hcons, hc⟩ := itemsText_append_cons l.items
  obtain ⟨lead', hlead, -, hseparators⟩ := trimLineEnds_separators l.leadChars hc t
  refine ⟨⟨lead', items', hlead, hafter, hapart⟩, hsame, ?_⟩
  rw [SeparatedList.text, List.append_assoc, hcons, hseparators, ← hcons, htrim,
    SeparatedList.text, List.append_assoc]

/-! The list is read: its end is found, and the attributes in it. -/

theorem Skips.separators (h : sep.all isSeparator) : Skips sep := by
  refine .of_plain fun c hc => ?_
  rcases isSeparator_cases (List.all_eq_true.1 h c hc) with rfl | rfl | rfl | rfl <;> decide

theorem Skips.written (a : ListedAttribute) : Skips a.written := by
  have hname : Skips a.name := by
    refine .of_plain fun c hc hmem => ?_
    have hmarks : "()\"'\x60".toList.all (!isListNameChar ·) := by decide
    have hmark : isListNameChar c = false := by simpa using List.all_eq_true.1 hmarks c hmem
    exact ne_of_isListNameChar (a.isListNameChar_of_mem c hc) hmark rfl
  cases hvalue : a.value with
  | none => simpa [ListedAttribute.written, hvalue] using hname
  | some v =>
    have hequals : Skips ['='] := .of_plain (List.forall_mem_singleton.2 (by decide))
    rw [ListedAttribute.written, hvalue]
    exact hname.append (hequals.append (.quoted v.isQuote v.unquoted v.unescaped))

theorem Skips.itemsText (h : ∀ item ∈ items, item.2.all isSeparator) :
    Skips (itemsText items) := by
  induction items with
  | nil => exact .nil
  | cons item items ih =>
    obtain ⟨hsep, hafter⟩ := List.forall_mem_cons.1 h
    rw [itemsText_cons]
    exact (Skips.written item.1).append ((Skips.separators hsep).append (ih hafter))

theorem SeparatedList.closing?_text (l : SeparatedList) :
    closing? 1 none false (l.text ++ [')']) = some (l.text, []) := by
  have hskips : Skips l.text := (Skips.separators l.leadChars).append (.itemsText l.afterChars)
  rw [hskips [')']]
  simp [closing?]

/-- A list that goes on over the lines below is read as if the lines were joined. -/
theorem readList_of_closing (h : closing? 1 none false (t ++ Text.stack (lines.map Line.text)) =
    some (inside, [])) : readList t lines = ⟨inside, [], []⟩ := by
  induction lines generalizing t with
  | nil =>
    rw [List.map_nil, Text.stack_nil, List.append_nil] at h
    unfold readList
    rw [h]
  | cons line lines ih =>
    unfold readList
    cases hline : closing? 1 none false t with
    | none =>
      apply ih
      simpa using h
    | some reading =>
      -- a list that is closed earlier leaves the lines below over
      have hall := closing?_append hline (Text.stack ((line :: lines).map Line.text))
      rw [h] at hall
      simp at hall

theorem endsName_of_isListNameChar (h : isListNameChar c) (t : Text) :
    endsName (c :: t) = false := by
  have hbang : c ≠ '!' := ne_of_isListNameChar h (by decide)
  have hequals : c ≠ '=' := ne_of_isListNameChar h (by decide)
  have hcomma : c ≠ ',' := ne_of_isListNameChar h (by decide)
  have hblank : isAsciiBlank c = false :=
    Bool.eq_false_iff.2 fun hascii => absurd (isBlank_of_isAsciiBlank hascii)
      (by simp [isBlank_of_isListNameChar h])
  unfold endsName
  split
  · next heq => exact absurd (List.cons.inj heq).1 hbang
  · next heq =>
    obtain ⟨rfl, -⟩ := List.cons.inj heq
    simp [hblank, hequals, hcomma]
  · next heq => cases heq

theorem ListedAttribute.readName_append (a : ListedAttribute) (hrest : endsName rest) :
    readName (a.name ++ rest) = (a.name, rest) := by
  refine Outline.readName_append a.named
    (fun c hc => endsName_of_isListNameChar (a.isListNameChar_of_mem c hc)) (fun c hc => ?_) hrest
  have hc := a.isListNameChar_of_mem c hc
  exact ⟨ne_of_isListNameChar hc (by decide), ne_of_isListNameChar hc (by decide)⟩

/-- An attribute ends before `rest`: its name does not go on there, and no value follows. -/
structure EndsAttribute (rest : Text) : Prop where
  name : endsName rest
  unvalued : ∀ c ∈ (rest.dropWhile (· == ' ')).head?, c ≠ '=' ∧ c ≠ '!'

theorem readAttribute_listed (a : ListedAttribute) (hrest : EndsAttribute rest) :
    readAttribute (a.written ++ rest) = (some a.toAttribute, rest) := by
  have hempty : a.name.isEmpty = false := List.isEmpty_eq_false_iff.2 a.named
  cases hvalue : a.value with
  | some v =>
    have hwritten : a.written ++ rest =
        a.name ++ '=' :: v.quote :: (v.text ++ v.quote :: rest) := by
      simp [ListedAttribute.written, QuotedValue.written, hvalue]
    have hname : readName (a.name ++ '=' :: v.quote :: (v.text ++ v.quote :: rest)) =
        (a.name, '=' :: v.quote :: (v.text ++ v.quote :: rest)) := a.readName_append rfl
    have hread := readValue_quoted v.isQuote v.unquoted v.unescaped rest
    rw [hwritten, readAttribute, hname]
    simp [hread, hempty, ListedAttribute.toAttribute, hvalue]
  | none =>
    have hwritten : a.written = a.name := by simp [ListedAttribute.written, hvalue]
    rw [hwritten, readAttribute, a.readName_append hrest.name]
    dsimp only
    split
    · next heq => exact absurd rfl (hrest.unvalued '!' (by rw [heq]; rfl)).2
    · next heq => exact absurd rfl (hrest.unvalued '=' (by rw [heq]; rfl)).1
    · simp [hempty, ListedAttribute.toAttribute, hvalue]

theorem readAttributes_listed (a : ListedAttribute) (hrest : EndsAttribute rest) :
    readAttributes (a.written ++ rest) = a.toAttribute :: readAttributes rest := by
  have hread := readAttribute_listed a hrest
  obtain ⟨c, t, hwritten, hc⟩ := a.written_cons
  have hcomma : c ≠ ',' := ne_of_isListNameChar hc (by decide)
  have hblank : ¬ isAsciiBlank c := fun hascii => absurd (isBlank_of_isAsciiBlank hascii)
      (by simp [isBlank_of_isListNameChar hc])
  rw [hwritten, List.cons_append] at hread ⊢
  rw [readAttributes, if_neg hblank, if_neg hcomma, hread]
  rfl

theorem readAttributes_separators (h : sep.all isSeparator) (t : Text) :
    readAttributes (sep ++ t) = readAttributes t := by
  induction sep with
  | nil => rfl
  | cons c sep ih =>
    obtain ⟨hc, hsep⟩ : isSeparator c ∧ sep.all isSeparator := by simpa using h
    rw [List.cons_append, readAttributes]
    rcases isSeparator_cases hc with rfl | rfl | rfl | rfl
    · rw [if_neg (by decide), if_pos rfl, ih hsep]
    all_goals rw [if_pos (by decide), ih hsep]

/-- After the spaces behind an attribute another separator comes, or the next name. -/
theorem head_dropWhile_separators (hsep : sep.all isSeparator)
    (ht : ∀ c ∈ t.head?, isListNameChar c) :
    ∀ c ∈ ((sep ++ t).dropWhile (· == ' ')).head?, isSeparator c ∨ isListNameChar c := by
  induction sep with
  | nil =>
    cases t with
    | nil => simp
    | cons d t =>
      have hd : isListNameChar d := ht d rfl
      have hspace : ¬ (d == ' ') := by simpa using ne_of_isListNameChar hd (by decide)
      rw [List.nil_append, List.dropWhile_cons_of_neg (p := (· == ' ')) hspace]
      rintro c ⟨⟩
      exact Or.inr hd
  | cons c sep ih =>
    obtain ⟨hc, hsep⟩ : isSeparator c ∧ sep.all isSeparator := by simpa using hsep
    rw [List.cons_append]
    by_cases hspace : c == ' '
    · rw [List.dropWhile_cons_of_pos (p := (· == ' ')) hspace]
      exact ih hsep
    · rw [List.dropWhile_cons_of_neg (p := (· == ' ')) hspace]
      rintro d ⟨⟩
      exact Or.inl hc

theorem EndsAttribute.separators (hsep : sep.all isSeparator) (hne : t ≠ [] → sep ≠ [])
    (ht : ∀ c ∈ t.head?, isListNameChar c) : EndsAttribute (sep ++ t) where
  name := by
    cases sep with
    | nil =>
      have hnil : t = [] := by simpa using hne
      rw [hnil]
      rfl
    | cons c sep =>
      have hc : isSeparator c := List.all_eq_true.1 hsep c List.mem_cons_self
      rcases isSeparator_cases hc with rfl | rfl | rfl | rfl <;> rfl
  unvalued := by
    intro c hc
    rcases head_dropWhile_separators hsep ht c hc with hsep | hname
    · rcases isSeparator_cases hsep with rfl | rfl | rfl | rfl <;> decide
    · exact ⟨ne_of_isListNameChar hname (by decide), ne_of_isListNameChar hname (by decide)⟩

theorem readAttributes_items (hafter : ∀ item ∈ items, item.2.all isSeparator)
    (hapart : items.IsChain fun item _ => item.2 ≠ []) :
    readAttributes (itemsText items) = items.map (·.1.toAttribute) := by
  induction items with
  | nil =>
    rw [itemsText, List.flatMap_nil, readAttributes]
    rfl
  | cons item items ih =>
    obtain ⟨hsep, hafter⟩ := List.forall_mem_cons.1 hafter
    obtain ⟨hhead, hapart⟩ := List.isChain_cons.1 hapart
    have hends : EndsAttribute (item.2 ++ itemsText items) := by
      cases items with
      | nil => exact .separators hsep (absurd rfl) (by rintro c ⟨⟩)
      | cons next items =>
        obtain ⟨c, t, hwritten, hc⟩ := next.1.written_cons
        refine .separators hsep (fun _ => hhead next rfl) ?_
        rw [itemsText_cons, hwritten]
        rintro d ⟨⟩
        exact hc
    rw [itemsText_cons, readAttributes_listed item.1 hends, readAttributes_separators hsep,
      ih hafter hapart, List.map_cons]

theorem SeparatedList.readAttributes_text (l : SeparatedList) :
    readAttributes l.text = l.items.map (·.1.toAttribute) := by
  rw [SeparatedList.text, readAttributes_separators l.leadChars,
    readAttributes_items l.afterChars l.apart]

/-! The element of the list. -/

theorem linesOf_eq_map (hne : t ≠ []) (hlast : ∀ c ∈ t.getLast?, c ≠ '\n') :
    linesOf t = (Text.split '\n' t).map Line.ofText := by
  obtain ⟨l, ls, rfl, hl, hls⟩ := Text.exists_eq_stack t
  rw [Text.split_stack, Text.split_eq_singleton hl, Text.flatMap_split hls, List.singleton_append]
  induction ls generalizing l with
  | nil =>
    rw [Text.stack_nil, List.append_nil] at hne ⊢
    simp [linesOf, Text.lines, Text.split_eq_singleton hl, hne]
  | cons l' ls ih =>
    obtain ⟨hl', hls⟩ := List.forall_mem_cons.1 hls
    have hmore : l' ++ Text.stack ls ≠ [] := by
      intro hnil
      have hend : '\n' ∈ (l ++ Text.stack (l' :: ls)).getLast? := by
        rw [Text.stack_cons, List.cons_append, hnil, List.getLast?_concat]
        rfl
      exact hlast '\n' hend rfl
    rw [Text.stack_cons, List.cons_append] at hlast ⊢
    rw [List.getLast?_append_of_ne_nil _ (List.cons_ne_nil _ _),
      List.getLast?_cons_of_ne_nil hmore] at hlast
    rw [linesOf_append_feed hl, ih l' hmore hlast hl' hls]
    rfl

theorem content_list (hne : name ≠ []) (hname : name.all isNameChar) (t : Text) :
    (Line.ofText (name ++ '(' :: t)).content = name ++ '(' :: t.trimEnd := by
  obtain ⟨c, cs, rfl⟩ := List.exists_cons_of_ne_nil hne
  have hc : ¬ isBlank c :=
    not_isBlank_of_isNameChar (List.all_eq_true.1 hname c List.mem_cons_self)
  have hparen : Text.trimEnd (cs ++ ['('] ++ t) = cs ++ ['('] ++ t.trimEnd := by
    refine Text.trimEnd_append_of_last t ?_
    rw [List.getLast?_concat]
    rintro d ⟨⟩
    decide
  rw [List.append_assoc, List.append_assoc] at hparen
  have hline := Line.ofText_blank_append (w := []) (by simp) hc (cs ++ '(' :: t)
  rw [List.nil_append] at hline
  rw [List.cons_append, hline]
  exact congrArg (c :: ·) hparen

/-- An element that takes all lines is the only item. -/
theorem parse_element {line : Line} {tag : Tag} (hlines : linesOf t = line :: lines)
    (hcontent : line.content = c :: u) (hc : isNameChar c)
    (h : readElement line.content lines = (⟨tag, [], false⟩, [])) :
    parse t = [.element tag []] := by
  have hstart := isHeadStart_of_isNameChar hc
  have hdot : line.content ≠ ['.'] := by
    rw [hcontent]
    rintro ⟨⟩
    exact absurd hc (by decide)
  have hentry := readEntry_of_ne hcontent (ne_of_isHeadStart hstart (by decide))
    (ne_of_isHeadStart hstart (by decide)) (ne_of_isHeadStart hstart (by decide)) hdot lines
  rw [h] at hentry
  have hsolid : line.isEmpty = false := by rw [Line.isEmpty, hcontent]; rfl
  rw [parse, hlines, entries_cons hsolid, hentry]
  simp [elementEntry, entries, nest]

theorem SeparatedList.parse_text (l : SeparatedList) (hne : name ≠ [])
    (hname : name.all isNameChar) :
    parse (name ++ '(' :: (l.text ++ [')'])) =
      [.element ⟨name, l.items.map (·.1.toAttribute), false⟩ []] := by
  obtain ⟨c, cs, hcons⟩ := List.exists_cons_of_ne_nil hne
  have hc : isNameChar c := List.all_eq_true.1 hname c (by rw [hcons]; exact List.mem_cons_self)
  obtain ⟨first, ls, htext, hfirst, hls⟩ := Text.exists_eq_stack (l.text ++ [')'])
  -- the list as its lines give it, without the blanks at their ends
  obtain ⟨l', hsame, htrim⟩ := l.exists_trimLineEnds
  have hline : '\n' ∉ name ++ '(' :: first := by
    intro hmem
    rcases List.mem_append.1 hmem with hmem | hmem
    · exact absurd (List.all_eq_true.1 hname _ hmem) (by decide)
    · exact (List.mem_cons.1 hmem).elim (by decide) hfirst
  have hlines : linesOf (name ++ '(' :: (l.text ++ [')'])) =
      Line.ofText (name ++ '(' :: first) :: ls.map Line.ofText := by
    have hlast : (name ++ '(' :: (l.text ++ [')'])).getLast? = some ')' := by
      rw [← List.cons_append, ← List.append_assoc, List.getLast?_concat]
    rw [linesOf_eq_map (by simp) (by rw [hlast]; rintro d ⟨⟩; decide), htext, ← List.cons_append,
      ← List.append_assoc, Text.split_stack, Text.split_eq_singleton hline,
      Text.flatMap_split hls]
    rfl
  have hcontent := content_list hne hname first
  have hclosing : closing? 1 none false
      (first.trimEnd ++ Text.stack ((ls.map Line.ofText).map Line.text)) =
        some (l'.text, []) := by
    have htexts : (ls.map Line.ofText).map Line.text = ls.map Text.trimEnd := by
      rw [List.map_map]
      exact List.map_congr_left fun l _ => Line.text_ofText l
    rw [htexts, ← trimLineEnds_append_stack hfirst hls, ← htext, htrim, l'.closing?_text]
  have hattributes : readAttributes l'.text = l.items.map (·.1.toAttribute) := by
    have hmap := congrArg (List.map ListedAttribute.toAttribute) hsame
    rw [List.map_map, List.map_map] at hmap
    exact l'.readAttributes_text.trans hmap
  have hhead := readHead_list hne (List.all_eq_true.1 hname) (readList_of_closing hclosing)
  rw [← hcontent, hattributes] at hhead
  refine parse_element hlines (u := cs ++ '(' :: first.trimEnd) ?_ hc ?_
  · rw [hcontent, hcons]
    rfl
  · exact readElement_head hhead (by rintro d ⟨⟩)

/-- An element with a list of attributes has these attributes, however they are separated. -/
theorem compile_separatedList {name : Text} (hne : name ≠ []) (hname : name.all isNameChar)
    (hvoid : Markup.isVoid name = false) (l : SeparatedList) :
    compile (name ++ '(' :: (l.text ++ [')'])) =
      '<' :: name ++ (l.items.flatMap fun item => ' ' :: item.1.markup) ++ ['>'] ++
        ("</".toList ++ name ++ ['>']) := by
  have hopen : (l.items.map (·.1.toAttribute)).flatMap (fun a => ' ' :: a.render) =
      l.items.flatMap fun item => ' ' :: item.1.markup := by
    rw [List.flatMap_map]
    simp only [ListedAttribute.render_toAttribute]
  rw [compile, l.parse_text hne hname, renderAll, Item.render]
  simp [hvoid, Tag.renderOpen, renderAll, hopen]

theorem compile_separatedList_lines :
    let href : ListedAttribute :=
      ⟨"href".toList, some ⟨'"', "(a, 'b') ".toList, by decide, by decide, by decide, by decide⟩,
        by decide, by decide⟩
    let flag : ListedAttribute := ⟨"[wide]".toList, none, by decide, by decide⟩
    let title : ListedAttribute :=
      ⟨"title".toList,
        some ⟨'\x60', "x=\"<1>\"".toList, by decide, by decide, by decide, by decide⟩,
        by decide, by decide⟩
    let l : SeparatedList :=
      ⟨"\n\t".toList, [(href, ", \t\n \n  ".toList), (flag, " ".toList), (flag, ",".toList),
        (title, "\n".toList)], by decide, by decide, by decide⟩
    "a".toList ≠ [] ∧ "a".toList.all isNameChar ∧ Markup.isVoid "a".toList = false ∧
      l.text = "\n\thref=\"(a, 'b') \", \t\n \n  [wide] [wide],title=\x60x=\"<1>\"\x60\n".toList ∧
      compile ("a".toList ++ '(' :: (l.text ++ [')'])) =
        "<a href=\"(a, 'b') \" [wide] [wide] title=\"x=&quot;&lt;1&gt;&quot;\"></a>".toList := by
  intro href flag title l
  have hne : "a".toList ≠ [] := by decide
  have hname : "a".toList.all isNameChar := by decide
  have hvoid : Markup.isVoid "a".toList = false := by decide
  exact ⟨hne, hname, hvoid, by decide, (compile_separatedList hne hname hvoid l).trans (by decide)⟩

end TemplateProjection.Outline
