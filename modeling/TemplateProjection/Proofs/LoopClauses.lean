import Mathlib.Data.List.Infix
import TemplateProjection.Proofs.Words
import TemplateProjection.Template.Loop

/-!
Loop clauses are read back as they are written: names in parentheses, `in` or `of`, and a source. A
pattern with commas in it is one name, and a source may hold separators and commas of its own.
-/
namespace TemplateProjection

variable {c : Char} {s t : Text} {offset : Nat}

/-- What a mark is not part of does not reach over it. -/
theorem Text.prefix_of_append_cons (hc : c ∉ t) {rest : Text} (h : t <+: s ++ c :: rest) :
    t <+: s := by
  rcases List.prefix_or_prefix_of_prefix h (List.prefix_append s (c :: rest)) with hshort | hlong
  · exact hshort
  · obtain ⟨u, rfl⟩ := hlong
    obtain ⟨v, hv⟩ := h
    rw [List.append_assoc] at hv
    cases u with
    | nil => simp
    | cons d u =>
      obtain ⟨rfl, -⟩ := List.cons.inj (List.append_cancel_left hv)
      exact absurd (List.mem_append_right s List.mem_cons_self) hc

theorem Text.infix_or_infix_of_append_cons (hc : c ∉ t) {rest : Text}
    (h : t <:+: s ++ c :: rest) : t <:+: s ∨ t <:+: rest := by
  induction s with
  | nil =>
    rcases List.infix_cons_iff.1 h with hstart | hrest
    · exact .inl (Text.prefix_of_append_cons (s := []) hc hstart).isInfix
    · exact .inr hrest
  | cons a s ih =>
    rcases List.infix_cons_iff.1 h with hstart | hrest
    · exact .inl (Text.prefix_of_append_cons (s := a :: s) hc hstart).isInfix
    · exact (ih hrest).imp_left fun hs => hs.trans (List.suffix_cons a s).isInfix

theorem Excerpt.trim_append {lead t : Text} (hlead : ∀ c ∈ lead, isBlank c) (ht : t.Trimmed)
    (start : Nat) : (Excerpt.mk start (lead ++ t)).trim = ⟨start + lead.byteLength, t⟩ := by
  simp only [Excerpt.trim, Excerpt.dropWhile, Excerpt.dropTrailing,
    takeWhile_append_of_head hlead ht.head, dropWhile_append_of_head hlead ht.head,
    Text.dropTrailing_eq_self ht.last]

namespace Template

theorem Expression.ofExcerpt?_append {lead t : Text} (hlead : ∀ c ∈ lead, isBlank c)
    (ht : t.Trimmed) (hne : t ≠ []) (start : Nat) :
    Expression.ofExcerpt? ⟨start, lead ++ t⟩ = some (.ofExcerpt ⟨start + lead.byteLength, t⟩) := by
  have hempty : t.isEmpty = false := by simpa using hne
  simp only [Expression.ofExcerpt?, Excerpt.trim_append hlead ht, hempty]
  rfl

/-- What stands between the names and the source of a loop clause. -/
def keywords : List Text := ["in".toList, "of".toList]

/-- No keyword stands between blanks. -/
def Unseparated (t : Text) : Prop :=
  ∀ keyword ∈ keywords, ∀ c d, isAsciiBlank c → isAsciiBlank d → ¬ c :: (keyword ++ [d]) <:+: t

theorem eq_of_mem_keywords {keyword : Text} (h : keyword ∈ keywords) :
    keyword = ['i', 'n'] ∨ keyword = ['o', 'f'] := by
  simpa [keywords] using h

/-- Blanks, a keyword and another blank separate the names from the source. -/
theorem exists_of_startsSeparator (h : startsSeparator t) :
    ∃ blanks, blanks ≠ [] ∧ (∀ c ∈ blanks, isAsciiBlank c) ∧
      ∃ keyword ∈ keywords, ∃ d rest, isAsciiBlank d ∧ t = blanks ++ (keyword ++ d :: rest) := by
  have happ : t.takeWhile isAsciiBlank ++ t.dropWhile isAsciiBlank = t :=
    List.takeWhile_append_dropWhile
  unfold startsSeparator at h
  split at h
  · next c u =>
    obtain ⟨hc, hkeyword⟩ := (Bool.and_eq_true _ _).mp h
    have hne : (c :: u).takeWhile isAsciiBlank ≠ [] := by simp [hc]
    refine ⟨_, hne, fun d hd => List.mem_takeWhile_imp hd, ?_⟩
    split at hkeyword
    · next d rest hdrop =>
      rw [hdrop] at happ
      exact ⟨['i', 'n'], .head _, d, rest, hkeyword, happ.symm⟩
    · next d rest hdrop =>
      rw [hdrop] at happ
      exact ⟨['o', 'f'], .tail _ (.head _), d, rest, hkeyword, happ.symm⟩
    · cases hkeyword
  · cases h

/-- Blanks and keywords hold none of the marks of a clause. -/
theorem not_mem_of_mark {keyword : Text} (hc : c ∈ "(,)".toList) (hkeyword : keyword ∈ keywords)
    (hs : ∀ d ∈ s, isAsciiBlank d) (ht : ∀ d ∈ t, isAsciiBlank d) : c ∉ s ++ (keyword ++ t) := by
  have hblank : isAsciiBlank c = false ∧ c ∉ ['i', 'n'] ∧ c ∉ ['o', 'f'] := by
    have hall : "(,)".toList.all fun c =>
        decide (isAsciiBlank c = false ∧ c ∉ ['i', 'n'] ∧ c ∉ ['o', 'f']) := by decide
    exact of_decide_eq_true (List.all_eq_true.1 hall c hc)
  intro hmem
  rcases List.mem_append.1 hmem with hmem | hmem
  · exact Bool.eq_false_iff.1 hblank.1 (hs c hmem)
  · rcases List.mem_append.1 hmem with hmem | hmem
    · rcases eq_of_mem_keywords hkeyword with rfl | rfl
      · exact hblank.2.1 hmem
      · exact hblank.2.2 hmem
    · exact Bool.eq_false_iff.1 hblank.1 (ht c hmem)

/-- Marks divide a text into parts without separators. -/
theorem Unseparated.append_cons (hs : Unseparated s) (ht : Unseparated t) (hc : c ∈ "(,)".toList) :
    Unseparated (s ++ c :: t) := by
  intro keyword hkeyword b d hb hd hwithin
  have hmark : c ∉ [b] ++ (keyword ++ [d]) :=
    not_mem_of_mark hc hkeyword (List.forall_mem_singleton.2 hb) (List.forall_mem_singleton.2 hd)
  rcases Text.infix_or_infix_of_append_cons hmark hwithin with h | h
  · exact hs keyword hkeyword b d hb hd h
  · exact ht keyword hkeyword b d hb hd h

/-- A text with a blank at its start only. -/
theorem Unseparated.cons_of_solid (h : ∀ d ∈ t, ¬ isAsciiBlank d) (c : Char) :
    Unseparated (c :: t) := by
  intro keyword hkeyword b d hb hd hwithin
  rcases List.infix_cons_iff.1 hwithin with hstart | hwithin
  · obtain ⟨-, hstart⟩ := List.cons_prefix_cons.1 hstart
    exact h d (hstart.subset (by simp)) hd
  · exact h b (hwithin.subset List.mem_cons_self) hb

theorem breakAt_startsSeparator {rest : Text} (hs : Unseparated s) (hrest : startsSeparator rest) :
    (s ++ ')' :: rest).breakAt startsSeparator = (s ++ [')'], rest) := by
  rw [List.append_cons]
  refine Text.breakAt_append_of_tails (fun tail htail hne => ?_) (.inr hrest)
  rw [Bool.eq_false_iff]
  intro hstarts
  obtain ⟨blanks, hblanks, hall, keyword, hkeyword, d, after, hd, heq⟩ :=
    exists_of_startsSeparator hstarts
  -- the tail ends with the parenthesis, over which no separator reaches
  obtain ⟨u, rfl, hu⟩ := (List.suffix_concat_iff.1 htail).resolve_left hne
  have hmark : ')' ∉ blanks ++ (keyword ++ [d]) :=
    not_mem_of_mark (by decide) hkeyword hall (List.forall_mem_singleton.2 hd)
  have happ : blanks ++ (keyword ++ [d]) ++ after = u ++ ')' :: rest := by
    rw [List.append_cons u, heq]
    simp only [List.append_assoc, List.cons_append, List.nil_append]
  have hstart : blanks ++ (keyword ++ [d]) <+: u := Text.prefix_of_append_cons hmark ⟨after, happ⟩
  have hlast := List.dropLast_append_getLast hblanks
  refine hs keyword hkeyword (blanks.getLast hblanks) d (hall _ (List.getLast_mem hblanks)) hd ?_
  refine List.IsInfix.trans ?_ (hstart.isInfix.trans hu.isInfix)
  exact ⟨blanks.dropLast, [], by rw [List.append_nil, List.append_cons, hlast]⟩

/-! ### What is written -/

/-- A loop clause as it is written: a value and at most a key and an index in parentheses, a keyword
and a source. -/
structure WrittenClause where
  value : Text
  /-- The key, if there is one, and after it the index. -/
  iterators : List Text
  keyword : Text
  source : Text
  value_filled : value ≠ []
  value_trimmed : value.Trimmed
  value_unseparated : Unseparated value
  /-- Behind each comma of the value a brace or a bracket is closed. -/
  value_closed : ∀ tail, ',' :: tail <:+ value → '\x7d' ∈ tail ∨ ']' ∈ tail
  iterators_few : iterators.length ≤ 2
  iterators_filled : ∀ name ∈ iterators, name ≠ []
  iterators_solid : ∀ name ∈ iterators, ∀ c ∈ name, ¬ isBlank c ∧ c ∉ ",\x7d]".toList
  keyword_mem : keyword ∈ keywords
  source_filled : source ≠ []
  source_trimmed : source.Trimmed
  unquoted : ∀ part ∈ source :: value :: iterators, '"' ∉ part

/-- Names behind the first one. -/
def listNames (names : List Text) : Text := names.flatMap (", ".toList ++ ·)

theorem listNames_cons (name : Text) (names : List Text) :
    listNames (name :: names) = ',' :: ' ' :: (name ++ listNames names) := rfl

theorem not_mem_listNames {names : List Text} (hc : c ∉ ", ".toList)
    (h : ∀ name ∈ names, c ∉ name) : c ∉ listNames names := by
  intro hmem
  obtain ⟨name, hname, hmem⟩ := List.mem_flatMap.1 hmem
  rcases List.mem_append.1 hmem with hmem | hmem
  · exact hc hmem
  · exact h name hname hmem

theorem count_comma_listNames {names : List Text} (h : ∀ name ∈ names, ',' ∉ name) :
    (listNames names).count ',' = names.length := by
  induction names with
  | nil => rfl
  | cons name names ih =>
    obtain ⟨hname, hnames⟩ := List.forall_mem_cons.1 h
    rw [listNames_cons, List.count_cons_self, List.count_cons_of_ne (by decide), List.count_append,
      List.count_eq_zero.2 hname, ih hnames, Nat.zero_add, List.length_cons]

/-- Where names stand that are listed from an offset on. -/
def locateNames : Nat → List Text → List Excerpt
  | _, [] => []
  | offset, name :: names =>
    ⟨offset + 2, name⟩ :: locateNames (offset + 2 + name.byteLength) names

namespace WrittenClause

variable (w : WrittenClause)

/-- What stands in the parentheses. -/
def names : Text := w.value ++ listNames w.iterators

def text : Text := '(' :: (w.names ++ ')' :: ' ' :: (w.keyword ++ ' ' :: w.source))

/-- Where the value stands in a clause that starts at an offset. -/
def valueAt (offset : Nat) : Excerpt := ⟨offset + 1, w.value⟩

def iteratorsAt (offset : Nat) : List Excerpt :=
  locateNames (offset + 1 + w.value.byteLength) w.iterators

def sourceAt (offset : Nat) : Excerpt := ⟨offset + w.names.byteLength + 6, w.source⟩

/-- The source, the value, the key and the index, each at its place. -/
def partsAt (offset : Nat) : List Excerpt :=
  w.sourceAt offset :: w.valueAt offset :: w.iteratorsAt offset

/-- The clause that is written, with the places of its parts. -/
def clauseAt (offset : Nat) : LoopClause where
  source := .ofExcerpt (w.sourceAt offset)
  value := some (.ofExcerpt (w.valueAt offset))
  key := (w.iteratorsAt offset)[0]?.map .ofExcerpt
  index := (w.iteratorsAt offset)[1]?.map .ofExcerpt

theorem unseparated_listNames {names : List Text} (hs : Unseparated s)
    (h : ∀ name ∈ names, ∀ c ∈ name, ¬ isBlank c) : Unseparated (s ++ listNames names) := by
  induction names generalizing s with
  | nil => simpa [listNames] using hs
  | cons name names ih =>
    obtain ⟨hname, hnames⟩ := List.forall_mem_cons.1 h
    have hsolid : ∀ c ∈ name, ¬ isAsciiBlank c := fun c hc hblank =>
      hname c hc (isBlank_of_isAsciiBlank hblank)
    have hlisted := ih (hs.append_cons (.cons_of_solid hsolid ' ') (c := ',') (by decide)) hnames
    rw [listNames_cons]
    simpa only [List.append_assoc, List.cons_append] using hlisted

theorem unseparated_names : Unseparated ('(' :: w.names) := by
  have hnames : Unseparated w.names :=
    unseparated_listNames w.value_unseparated fun name hname c hc =>
      (w.iterators_solid name hname c hc).1
  have hnil : Unseparated [] := fun keyword _ b d _ _ h => by simp at h
  exact hnil.append_cons hnames (by decide)

theorem startsSeparator_source :
    startsSeparator (' ' :: (w.keyword ++ ' ' :: w.source)) := by
  rcases eq_of_mem_keywords w.keyword_mem with h | h <;> rw [h] <;> rfl

theorem byteLength_keyword : w.keyword.byteLength = 2 := by
  rcases eq_of_mem_keywords w.keyword_mem with h | h <;> rw [h] <;> rfl

theorem drop_keyword {keyword : Text} (h : keyword ∈ keywords) (start : Nat) (t : Text) :
    ((Excerpt.mk start (' ' :: (keyword ++ t))).dropWhile isAsciiBlank).drop 2 =
      ⟨start + 3, t⟩ := by
  rcases eq_of_mem_keywords h with rfl | rfl <;> rfl

/-- The clause is divided at its keyword. -/
theorem splitClause?_text (offset : Nat) :
    splitClause? ⟨offset, w.text⟩ = some (⟨offset, '(' :: (w.names ++ [')'])⟩,
      ⟨offset + w.names.byteLength + 5, ' ' :: w.source⟩) := by
  have hbreak : w.text.breakAt startsSeparator =
      ('(' :: (w.names ++ [')']), ' ' :: (w.keyword ++ ' ' :: w.source)) :=
    breakAt_startsSeparator w.unseparated_names w.startsSeparator_source
  have hlength : Text.byteLength ('(' :: (w.names ++ [')'])) = w.names.byteLength + 2 := by
    have hmarks : Char.utf8Size '(' = 1 ∧ Char.utf8Size ')' = 1 := by decide
    simp only [Text.byteLength_cons, Text.byteLength_append, Text.byteLength_nil, hmarks]
    omega
  simp only [splitClause?, Excerpt.breakAt, hbreak, List.isEmpty_cons, Bool.false_eq_true, if_false,
    drop_keyword w.keyword_mem, hlength, Nat.add_assoc]

theorem bareNames_parenthesized (names : Text) (offset : Nat) :
    bareNames ⟨offset, '(' :: (names ++ [')'])⟩ = ⟨offset + 1, names⟩ := by
  have htrimmed : Text.Trimmed ('(' :: (names ++ [')'])) := by
    refine ⟨?_, ?_⟩
    · rintro c ⟨⟩
      decide
    · rw [← List.cons_append, List.getLast?_concat]
      rintro c ⟨⟩
      decide
  have htrim := @Excerpt.trim_append [] _ (by simp) htrimmed offset
  rw [List.nil_append] at htrim
  have hdrop : (Excerpt.mk (offset + Text.byteLength []) ('(' :: (names ++ [')']))).drop 1 =
      ⟨offset + 1, names ++ [')']⟩ := rfl
  simp only [bareNames, htrim, List.head?_cons, beq_self_eq_true, if_true, hdrop,
    List.getLast?_concat, List.dropLast_concat]

/-- At a comma of a pattern the iterators do not start. -/
theorem startsIterators_of_closed {tail rest : Text} (hne : tail ≠ [])
    (h : ∀ t, tail = ',' :: t → '\x7d' ∈ t ∨ ']' ∈ t) : startsIterators (tail ++ rest) = false := by
  obtain ⟨c, t, rfl⟩ := List.exists_cons_of_ne_nil hne
  unfold startsIterators
  split
  · next t' heq =>
    obtain ⟨rfl, rfl⟩ := List.cons.inj heq
    rcases h t rfl with hclosed | hclosed <;> simp [hclosed]
  · rfl

/-- A key and perhaps an index have at most one comma between them and close nothing. -/
theorem startsIterators_listNames {names : List Text} (hne : names ≠ []) (hfew : names.length ≤ 2)
    (h : ∀ name ∈ names, ∀ c ∈ name, c ∉ ",\x7d]".toList) : startsIterators (listNames names) := by
  have hnot : ∀ c ∈ ",\x7d]".toList, ∀ name ∈ names, c ∉ name :=
    fun c hc name hname hmem => h name hname c hmem hc
  have hcount := count_comma_listNames (hnot ',' (by decide))
  have hbrace : '\x7d' ∉ listNames names := not_mem_listNames (by decide) (hnot _ (by decide))
  have hbracket : ']' ∉ listNames names := not_mem_listNames (by decide) (hnot _ (by decide))
  obtain ⟨name, names, rfl⟩ := List.exists_cons_of_ne_nil hne
  rw [listNames_cons] at hcount hbrace hbracket ⊢
  rw [List.count_cons_self, List.length_cons] at hcount
  rw [List.length_cons] at hfew
  have hcommas : (' ' :: (name ++ listNames names)).count ',' ≤ 1 := by omega
  simp only [startsIterators, Bool.and_eq_true, decide_eq_true_eq, Bool.not_eq_true',
    List.contains_eq_mem, decide_eq_false_iff_not]
  exact ⟨⟨hcommas, fun hmem => hbrace (.tail _ hmem)⟩, fun hmem => hbracket (.tail _ hmem)⟩

/-- The value ends where the iterators start. -/
theorem breakAt_names : w.names.breakAt startsIterators = (w.value, listNames w.iterators) := by
  refine Text.breakAt_append_of_tails (fun tail htail hne => ?_) ?_
  · refine startsIterators_of_closed hne ?_
    rintro t rfl
    exact w.value_closed t htail
  · cases hiterators : w.iterators with
    | nil => exact .inl rfl
    | cons name names =>
      rw [← hiterators]
      refine .inr (startsIterators_listNames (by simp [hiterators]) w.iterators_few ?_)
      exact fun name hname c hc => (w.iterators_solid name hname c hc).2

theorem trimmed_of_solid {name : Text} (h : ∀ c ∈ name, ¬ isBlank c) : name.Trimmed :=
  ⟨fun c hc => h c (List.mem_of_head? hc), fun c hc => h c (List.mem_of_getLast? hc)⟩

theorem ofExcerpt?_solid {name : Text} (hne : name ≠ []) (h : ∀ c ∈ name, ¬ isBlank c)
    (start : Nat) :
    Expression.ofExcerpt? ⟨start, ' ' :: name⟩ = some (.ofExcerpt ⟨start + 1, name⟩) :=
  @Expression.ofExcerpt?_append [' '] _ (List.forall_mem_singleton.2 (by decide))
    (trimmed_of_solid h) hne start

theorem drop_listNames (name : Text) (names : List Text) (start : Nat) :
    (Excerpt.mk start (listNames (name :: names))).drop 1 =
      ⟨start + 1, ' ' :: (name ++ listNames names)⟩ := rfl

/-- The first of the listed names, and the rest of the list. -/
theorem takeWhile_listed {name : Text} {names : List Text} (h : ',' ∉ name) (start : Nat) :
    (Excerpt.mk start (' ' :: (name ++ listNames names))).takeWhile (· != ',') =
        ⟨start, ' ' :: name⟩ ∧
      (Excerpt.mk start (' ' :: (name ++ listNames names))).dropWhile (· != ',') =
        ⟨start + 1 + name.byteLength, listNames names⟩ := by
  have hname : ∀ c ∈ ' ' :: name, (c != ',') = true := by
    refine List.forall_mem_cons.2 ⟨by decide, fun c hc => ?_⟩
    exact bne_iff_ne.2 fun heq => h (heq ▸ hc)
  have hrest : ∀ c ∈ (listNames names).head?, ¬ (c != ',') = true := by
    cases names with
    | nil => simp [listNames]
    | cons next names => simp [listNames_cons]
  have htake := takeWhile_append_of_head hname hrest
  have hdrop := dropWhile_append_of_head hname hrest
  rw [List.cons_append] at htake hdrop
  simp only [Excerpt.takeWhile, Excerpt.dropWhile, htake, hdrop, Text.byteLength_cons]
  exact ⟨trivial, by rw [← Nat.add_assoc]; rfl⟩

/-- The names are read as the value, the key and the index. -/
theorem splitNames_names (start : Nat) :
    (splitNames ⟨start, w.names⟩).1 = ⟨start, w.value⟩ ∧
      (splitNames ⟨start, w.names⟩).2.1.bind Expression.ofExcerpt? =
        (locateNames (start + w.value.byteLength) w.iterators)[0]?.map .ofExcerpt ∧
      (splitNames ⟨start, w.names⟩).2.2.bind Expression.ofExcerpt? =
        (locateNames (start + w.value.byteLength) w.iterators)[1]?.map .ofExcerpt := by
  have hfew := w.iterators_few
  have hfilled := w.iterators_filled
  have hsolid := w.iterators_solid
  simp only [splitNames, Excerpt.breakAt, w.breakAt_names]
  generalize w.iterators = iterators at *
  cases iterators with
  | nil => exact ⟨rfl, rfl, rfl⟩
  | cons key iterators =>
    obtain ⟨hkey, hiterators⟩ := List.forall_mem_cons.1 hfilled
    obtain ⟨hkeySolid, hsolid⟩ := List.forall_mem_cons.1 hsolid
    obtain ⟨htake, hrest⟩ := @takeWhile_listed key iterators
      (fun hmem => (hkeySolid _ hmem).2 (by decide)) (start + w.value.byteLength + 1)
    have hlisted : (listNames (key :: iterators)).isEmpty = false := rfl
    simp only [drop_listNames, htake, hrest, hlisted, Bool.false_eq_true, if_false,
      Option.bind_some]
    refine ⟨trivial, ofExcerpt?_solid hkey (fun c hc => (hkeySolid c hc).1) _, ?_⟩
    cases iterators with
    | nil => rfl
    | cons index iterators =>
      have hlast : iterators = [] := by
        simp only [List.length_cons] at hfew
        exact List.length_eq_zero_iff.1 (by omega)
      subst hlast
      have hindex := ofExcerpt?_solid (hiterators index (.head _))
        (fun c hc => (hsolid index (.head _) c hc).1)
        (start + w.value.byteLength + 1 + 1 + key.byteLength + 1)
      have hlisted : (listNames [index]).isEmpty = false := rfl
      have hnil : index ++ listNames [] = index := List.append_nil index
      simp only [drop_listNames, hlisted, hnil, Bool.false_eq_true, if_false, Option.bind_some]
      exact hindex

theorem ofExcerpt_text (offset : Nat) :
    LoopClause.ofExcerpt ⟨offset, w.text⟩ = w.clauseAt offset := by
  obtain ⟨hvalue, hkey, hindex⟩ := w.splitNames_names (offset + 1)
  have hsource := @Excerpt.trim_append [' '] _ (List.forall_mem_singleton.2 (by decide))
    w.source_trimmed (offset + w.names.byteLength + 5)
  have hread := @Expression.ofExcerpt?_append [] _ (by simp) w.value_trimmed w.value_filled
    (offset + 1)
  rw [List.singleton_append] at hsource
  rw [List.nil_append] at hread
  simp only [LoopClause.ofExcerpt, splitClause?_text, bareNames_parenthesized, hsource, hvalue,
    hkey, hindex, hread]
  rfl

theorem locateNames_in {source rest : Text} {names : List Text}
    (h : (Excerpt.mk offset (listNames names ++ rest)).In source) :
    ∀ part ∈ locateNames offset names, part.In source := by
  induction names generalizing offset with
  | nil => simp [locateNames]
  | cons name names ih =>
    have hsplit : listNames (name :: names) ++ rest =
        ", ".toList ++ name ++ (listNames names ++ rest) := by
      simp [listNames]
    refine List.forall_mem_cons.2 ⟨h.part hsplit, ih ?_⟩
    have hrest := h.final hsplit
    rw [Text.byteLength_append, ← Nat.add_assoc] at hrest
    exact hrest

/-- The parts of a clause that stands in a text stand there at their places. -/
theorem parts_in {source : Text} (h : (Excerpt.mk offset w.text).In source) :
    ∀ part ∈ w.partsAt offset, part.In source := by
  have hvalue : w.text = ['('] ++ w.value ++
      (listNames w.iterators ++ ')' :: ' ' :: (w.keyword ++ ' ' :: w.source)) := by
    simp only [text, names, List.append_assoc, List.cons_append, List.nil_append]
  have hsource : w.text = '(' :: (w.names ++ ")\x20".toList ++ w.keyword ++ [' ']) ++ w.source := by
    simp [text]
  have hlength : Text.byteLength ('(' :: (w.names ++ ")\x20".toList ++ w.keyword ++ [' '])) =
      w.names.byteLength + 6 := by
    have hmarks : Char.utf8Size '(' = 1 ∧ Text.byteLength ")\x20".toList = 2 ∧
        Text.byteLength [' '] = 1 := by decide
    simp only [Text.byteLength_cons, Text.byteLength_append, w.byteLength_keyword, hmarks]
    omega
  refine List.forall_mem_cons.2 ⟨?_, List.forall_mem_cons.2 ⟨h.part hvalue, ?_⟩⟩
  · have hplace := h.final hsource
    rw [hlength, ← Nat.add_assoc] at hplace
    exact hplace
  · have hplace := h.final hvalue
    rw [Text.byteLength_append, ← Nat.add_assoc] at hplace
    exact locateNames_in hplace

theorem unquoted_text : '"' ∉ w.text := by
  obtain ⟨hsource, hvalue, hiterators⟩ :=
    (List.forall_mem_cons.1 w.unquoted).imp_right List.forall_mem_cons.1
  have hnames := not_mem_listNames (by decide) hiterators
  have hkeyword : '"' ∉ w.keyword := by
    rcases eq_of_mem_keywords w.keyword_mem with h | h <;> rw [h] <;> decide
  simp [text, names, hsource, hvalue, hnames, hkeyword]

end WrittenClause

end TemplateProjection.Template
