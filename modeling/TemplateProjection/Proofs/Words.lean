import Mathlib.Data.List.TakeWhile
import TemplateProjection.Proofs.Excerpt
import TemplateProjection.Proofs.Lists
import TemplateProjection.Text.Split

/-! The lines and the words of a text, and what trimming leaves of them. -/
namespace TemplateProjection.Text

variable {s t w : Text} {c sep : Char} {ls : List Text}

/-- The longest parts without blanks. -/
def words (t : Text) : List Text := (t.splitOnP isBlank).filter (!·.isEmpty)

theorem split_eq_splitOn (sep : Char) (t : Text) : split sep t = t.splitOn sep := by
  induction t with
  | nil => rfl
  | cons c t ih =>
    rw [List.splitOn_cons_eq_if_modifyHead, split, ih]
    by_cases hc : c = sep
    · rw [if_pos hc, if_pos (beq_iff_eq.2 hc)]
    · rw [if_neg hc, if_neg (by simpa using hc)]
      obtain ⟨piece, pieces, h⟩ := List.exists_cons_of_ne_nil (List.splitOn_ne_nil sep t)
      rw [h, List.modifyHead_cons]

theorem join_split (sep : Char) (t : Text) : join [sep] (split sep t) = t := by
  rw [split_eq_splitOn]
  exact List.intercalate_splitOn sep

theorem split_join (h : ∀ l ∈ ls, sep ∉ l) (hne : ls ≠ []) : split sep (join [sep] ls) = ls := by
  rw [split_eq_splitOn]
  exact List.splitOn_intercalate sep h hne

theorem split_append_cons (s t : Text) (sep : Char) :
    split sep (s ++ sep :: t) = split sep s ++ split sep t := by
  simp only [split_eq_splitOn, List.splitOn_append_cons_self]

theorem split_eq_singleton (h : sep ∉ t) : split sep t = [t] := by
  rw [split_eq_splitOn]
  exact List.splitOn_eq_singleton h

theorem not_mem_of_mem_split {piece : Text} (h : piece ∈ split sep t) : sep ∉ piece := by
  induction t generalizing piece with
  | nil =>
    rw [List.mem_singleton.1 h]
    exact List.not_mem_nil
  | cons c t ih =>
    simp only [split] at h
    split at h
    · rcases List.mem_cons.1 h with rfl | h
      · exact List.not_mem_nil
      · exact ih h
    · next hc =>
      obtain ⟨first, pieces, hsplit⟩ := List.exists_cons_of_ne_nil (split_ne_nil sep t)
      rw [hsplit] at ih h
      rcases List.mem_cons.1 h with rfl | h
      · have := ih List.mem_cons_self
        simpa [Ne.symm hc] using this
      · exact ih (List.mem_cons_of_mem first h)

@[simp]
theorem join_singleton (sep t : Text) : join sep [t] = t := List.intercalate_singleton

theorem join_cons {l : Text} (sep : Text) (h : ls ≠ []) :
    join sep (l :: ls) = l ++ sep ++ join sep ls := by
  obtain ⟨l', ls, rfl⟩ := List.exists_cons_of_ne_nil h
  exact List.intercalate_cons_cons

theorem mem_join {sep : Text} (h : c ∈ join sep ls) : c ∈ sep ∨ ∃ l ∈ ls, c ∈ l := by
  induction ls with
  | nil => simp [join] at h
  | cons l ls ih =>
    cases ls with
    | nil => exact Or.inr ⟨l, List.mem_cons_self, by simpa using h⟩
    | cons l' ls =>
      rw [join_cons sep (by simp)] at h
      rcases List.mem_append.1 h with h | h
      · rcases List.mem_append.1 h with h | h
        · exact Or.inr ⟨l, List.mem_cons_self, h⟩
        · exact Or.inl h
      · rcases ih h with h | ⟨m, hm, h⟩
        · exact Or.inl h
        · exact Or.inr ⟨m, List.mem_cons_of_mem l hm, h⟩

/-- Each line after a line feed. -/
def stack (ls : List Text) : Text := ls.flatMap ('\n' :: ·)

@[simp]
theorem stack_nil : stack [] = [] := rfl

@[simp]
theorem stack_cons (l : Text) (ls : List Text) : stack (l :: ls) = '\n' :: l ++ stack ls := rfl

@[simp]
theorem stack_append (ls ls' : List Text) : stack (ls ++ ls') = stack ls ++ stack ls' :=
  List.flatMap_append

theorem join_eq_stack (l : Text) (ls : List Text) : join ['\n'] (l :: ls) = l ++ stack ls := by
  induction ls generalizing l with
  | nil => simp
  | cons l' ls ih => simp [join_cons, ih]

theorem split_stack (s : Text) (ls : List Text) :
    split '\n' (s ++ stack ls) = split '\n' s ++ ls.flatMap (split '\n') := by
  induction ls generalizing s with
  | nil => simp
  | cons l ls ih =>
    rw [stack_cons, List.cons_append, split_append_cons, ih, List.flatMap_cons]

theorem split_join_lines (h : ls ≠ []) :
    split '\n' (join ['\n'] ls) = ls.flatMap (split '\n') := by
  obtain ⟨l, ls, rfl⟩ := List.exists_cons_of_ne_nil h
  rw [join_eq_stack, split_stack, List.flatMap_cons]

theorem flatMap_split (h : ∀ l ∈ ls, '\n' ∉ l) : ls.flatMap (split '\n') = ls := by
  induction ls with
  | nil => rfl
  | cons l ls ih =>
    obtain ⟨hl, hls⟩ := List.forall_mem_cons.1 h
    rw [List.flatMap_cons, split_eq_singleton hl, ih hls, List.singleton_append]

/-- A text is its first line and the lines below. -/
theorem exists_eq_stack (t : Text) :
    ∃ l ls, t = l ++ stack ls ∧ '\n' ∉ l ∧ ∀ l' ∈ ls, '\n' ∉ l' := by
  obtain ⟨l, ls, hsplit⟩ := List.exists_cons_of_ne_nil (split_ne_nil '\n' t)
  have hlines : ∀ l' ∈ l :: ls, '\n' ∉ l' := fun _ hl => not_mem_of_mem_split (hsplit ▸ hl)
  refine ⟨l, ls, ?_, List.forall_mem_cons.1 hlines⟩
  rw [← join_eq_stack, ← hsplit, join_split]

theorem infix_join {l : Text} (sep : Text) (h : l ∈ ls) : l <:+: join sep ls := by
  induction ls with
  | nil => simp at h
  | cons l' ls ih =>
    cases ls with
    | nil => simp [List.mem_singleton.1 h]
    | cons l'' ls =>
      rw [join_cons sep (by simp)]
      rcases List.mem_cons.1 h with rfl | h
      · rw [List.append_assoc]
        exact (List.prefix_append l _).isInfix
      · exact (ih h).trans (List.suffix_append _ _).isInfix

/-- Every piece of a text is part of it. -/
theorem infix_of_mem_split {piece : Text} (h : piece ∈ split sep t) : piece <:+: t :=
  join_split sep t ▸ infix_join [sep] h

/-- A part of a text without a line feed lies in one of its lines. -/
theorem exists_infix_of_infix_join {needle : Text} (hne : needle ≠ []) (hfeed : '\n' ∉ needle)
    (h : needle <:+: join ['\n'] ls) : ∃ l ∈ ls, needle <:+: l := by
  induction ls with
  | nil => exact absurd (List.infix_nil.1 h) hne
  | cons l ls ih =>
    cases ls with
    | nil => exact ⟨l, List.mem_singleton_self l, by simpa using h⟩
    | cons l' ls =>
      rw [join_cons _ (by simp), List.append_assoc] at h
      rcases List.infix_append_iff.1 h with h | h | ⟨a, b, rfl, ha, hb⟩
      · exact ⟨l, List.mem_cons_self, h⟩
      · rcases List.infix_cons_iff.1 h with h | h
        · rcases List.prefix_cons_iff.1 h with rfl | ⟨u, rfl, -⟩
          · exact absurd rfl hne
          · simp at hfeed
        · obtain ⟨m, hm, hin⟩ := ih h
          exact ⟨m, List.mem_cons_of_mem l hm, hin⟩
      · rcases List.prefix_cons_iff.1 hb with rfl | ⟨u, rfl, -⟩
        · exact ⟨l, List.mem_cons_self, by simpa using ha.isInfix⟩
        · simp at hfeed

theorem words_append_blank (hc : isBlank c) (s t : Text) :
    words (s ++ c :: t) = words s ++ words t := by
  unfold words
  rw [List.splitOnP_append_cons s t hc, List.filter_append]

@[simp]
theorem words_nil : words [] = [] := rfl

theorem words_cons_blank (hc : isBlank c) (t : Text) : words (c :: t) = words t :=
  words_append_blank hc [] t

theorem words_blank_append (h : ∀ c ∈ w, isBlank c) (t : Text) : words (w ++ t) = words t := by
  induction w with
  | nil => rfl
  | cons c w ih =>
    obtain ⟨hc, hw⟩ := List.forall_mem_cons.1 h
    rw [List.cons_append, words_cons_blank hc, ih hw]

theorem words_of_blank (h : ∀ c ∈ w, isBlank c) : words w = [] := by
  simpa using words_blank_append h []

theorem words_append_of_blank (s : Text) (h : ∀ c ∈ w, isBlank c) : words (s ++ w) = words s := by
  cases w with
  | nil => simp
  | cons c w =>
    obtain ⟨hc, hw⟩ := List.forall_mem_cons.1 h
    rw [words_append_blank hc, words_of_blank hw, List.append_nil]

theorem words_ne_nil (hc : c ∈ t) (hblank : ¬ isBlank c) : words t ≠ [] := by
  induction t with
  | nil => simp at hc
  | cons d t ih =>
    by_cases hd : isBlank d
    · rw [words_cons_blank hd]
      rcases List.mem_cons.1 hc with rfl | hc
      · exact absurd hd hblank
      · exact ih hc
    · unfold words
      obtain ⟨piece, pieces, h⟩ := List.exists_cons_of_ne_nil (List.splitOnP_ne_nil isBlank t)
      rw [List.splitOnP_cons_eq_if_modifyHead, if_neg hd, h]
      simp

theorem words_eq_nil_iff : words t = [] ↔ ∀ c ∈ t, isBlank c := by
  constructor
  · intro h c hc
    by_contra hblank
    exact words_ne_nil hc hblank h
  · exact words_of_blank

theorem words_stack (ls : List Text) : words (stack ls) = ls.flatMap words := by
  induction ls with
  | nil => rfl
  | cons l ls ih =>
    have hfeed : isBlank '\n' := by decide
    rw [stack_cons, List.cons_append, words_cons_blank hfeed, List.flatMap_cons, ← ih]
    cases ls with
    | nil => simp
    | cons l' ls =>
      rw [stack_cons, List.cons_append, words_append_blank hfeed, words_cons_blank hfeed]

theorem words_join (ls : List Text) : words (join ['\n'] ls) = ls.flatMap words := by
  cases ls with
  | nil => rfl
  | cons l ls =>
    have hfeed : isBlank '\n' := by decide
    rw [← words_stack, join_eq_stack, stack_cons, List.cons_append, words_cons_blank hfeed]

theorem after?_append (lead t : Text) : after? lead (lead ++ t) = some t := by
  induction lead with
  | nil => rfl
  | cons c lead ih => simp [after?, ih]

theorem isSome_after?_iff {needle : Text} : (after? needle t).isSome ↔ needle <+: t := by
  constructor
  · intro h
    obtain ⟨rest, hrest⟩ := Option.isSome_iff_exists.1 h
    exact ⟨rest, append_of_after? hrest⟩
  · rintro ⟨rest, rfl⟩
    rw [after?_append]
    rfl

theorem append_of_before? {tail u : Text} (h : before? tail t = some u) : u ++ tail = t := by
  obtain ⟨rest, hrest, rfl⟩ := Option.map_eq_some_iff.1 h
  have happ := congrArg List.reverse (append_of_after? hrest)
  simpa using happ

theorem before?_append (t tail : Text) : before? tail (t ++ tail) = some t := by
  rw [before?, List.reverse_append, after?_append, Option.map_some, List.reverse_reverse]

/-- The lines are as good as the pieces between line feeds for what ignores empty lines and carriage
returns. -/
theorem flatMap_lines {α : Type} {f : Text → List α} (hnil : f [] = [])
    (hreturn : ∀ l, f (l ++ ['\r']) = f l) (t : Text) :
    t.lines.flatMap f = (split '\n' t).flatMap f := by
  have hline : ∀ l : Text, f ((before? ['\r'] l).getD l) = f l := by
    intro l
    cases hbefore : before? ['\r'] l with
    | none => rfl
    | some u => rw [Option.getD_some, ← append_of_before? hbefore, hreturn]
  obtain ⟨ls, l, hsplit⟩ := (List.eq_nil_or_concat (split '\n' t)).resolve_left (split_ne_nil _ t)
  have hlast : ([l].filter (!·.isEmpty)).flatMap f = f l := by
    cases l <;> simp [hnil]
  simp only [lines, hsplit, List.concat_eq_append, List.dropLast_concat, List.getLast?_concat,
    Option.toList_some, List.flatMap_append, List.flatMap_map, hline, hlast,
    List.flatMap_singleton]

/-- A text is divided before its first tail in `stop`. -/
theorem breakAt_append_of_tails {stop : Text → Bool} {head rest : Text}
    (hhead : ∀ tail, tail <:+ head → tail ≠ [] → stop (tail ++ rest) = false)
    (hrest : rest = [] ∨ stop rest) : (head ++ rest).breakAt stop = (head, rest) := by
  induction head with
  | nil =>
    cases rest with
    | nil => rfl
    | cons c t =>
      rcases hrest with hrest | hrest
      · cases hrest
      · simp [breakAt, hrest]
  | cons c head ih =>
    have hc : stop (c :: (head ++ rest)) = false :=
      hhead (c :: head) (List.suffix_refl _) (List.cons_ne_nil c head)
    have hrec := ih fun tail htail => hhead tail (htail.trans (List.suffix_cons c head))
    simp [breakAt, hc, hrec]

theorem breakAt_append_of_stop {stop : Text → Bool} {name rest : Text}
    (hname : ∀ c ∈ name, ∀ t, stop (c :: t) = false)
    (hrest : rest = [] ∨ stop rest) : (name ++ rest).breakAt stop = (name, rest) := by
  refine breakAt_append_of_tails (fun tail htail hne => ?_) hrest
  obtain ⟨c, t, rfl⟩ := List.exists_cons_of_ne_nil hne
  exact hname c (htail.subset List.mem_cons_self) (t ++ rest)

/-- Neither end of the text is blank. -/
structure Trimmed (t : Text) : Prop where
  head : ∀ c ∈ t.head?, ¬ isBlank c
  last : ∀ c ∈ t.getLast?, ¬ isBlank c

theorem trimStart_blank_append (h : ∀ c ∈ w, isBlank c) (t : Text) :
    trimStart (w ++ t) = trimStart t :=
  List.dropWhile_append_of_pos h

theorem trimStart_eq_self (h : ∀ c ∈ t.head?, ¬ isBlank c) : trimStart t = t :=
  dropWhile_append_of_head (s := []) (by simp) h

theorem dropTrailing_eq_self {p : Char → Bool} (h : ∀ c ∈ t.getLast?, ¬ p c) :
    t.dropTrailing p = t := by
  have hhead : ∀ c ∈ t.reverse.head?, ¬ p c := by rwa [List.head?_reverse]
  have hreverse := dropWhile_append_of_head (s := []) (by simp) hhead
  rw [List.nil_append] at hreverse
  rw [dropTrailing, hreverse, List.reverse_reverse]

theorem dropTrailing_concat {p : Char → Bool} (t : Text) (h : p c) :
    (t ++ [c]).dropTrailing p = t.dropTrailing p := by
  simp [dropTrailing, h]

theorem trimEnd_eq_self (h : ∀ c ∈ t.getLast?, ¬ isBlank c) : trimEnd t = t :=
  dropTrailing_eq_self h

theorem trimEnd_append (s : Text) (h : ∃ c ∈ t, ¬ isBlank c) :
    trimEnd (s ++ t) = s ++ trimEnd t := by
  have hne : (t.reverse.dropWhile isBlank).isEmpty = false := by
    obtain ⟨c, hc, hblank⟩ := h
    have hdrop : t.reverse.dropWhile isBlank ≠ [] := by
      intro hnil
      exact hblank (List.dropWhile_eq_nil_iff.1 hnil c (List.mem_reverse.2 hc))
    simpa using hdrop
  simp only [trimEnd, dropTrailing, List.reverse_append, List.dropWhile_append, hne]
  simp

theorem trimStart_append_of_head (s : Text) (h : ∀ c ∈ t.head?, ¬ isBlank c) :
    trimStart (s ++ t) = trimStart s ++ t := by
  induction s with
  | nil => exact trimStart_eq_self h
  | cons c s ih =>
    by_cases hc : isBlank c
    · simpa [trimStart, hc] using ih
    · simp [trimStart, hc]

theorem trimEnd_append_of_last (t : Text) (h : ∀ c ∈ s.getLast?, ¬ isBlank c) :
    trimEnd (s ++ t) = s ++ trimEnd t := by
  have hhead : ∀ c ∈ s.reverse.head?, ¬ isBlank c := by rwa [List.head?_reverse]
  have hreverse := trimStart_append_of_head t.reverse hhead
  simp only [trimStart] at hreverse
  simp only [trimEnd, dropTrailing, List.reverse_append, hreverse, List.reverse_reverse]

theorem trimEnd_cons (hc : ¬ isBlank c) (t : Text) : trimEnd (c :: t) = c :: trimEnd t :=
  trimEnd_append_of_last (s := [c]) t (by simpa using hc)

theorem trimEnd_of_blank (h : ∀ c ∈ w, isBlank c) : trimEnd w = [] := by
  have hreverse : ∀ c ∈ w.reverse, isBlank c := fun c hc => h c (List.mem_reverse.1 hc)
  rw [trimEnd, dropTrailing, List.dropWhile_eq_nil_iff.2 hreverse, List.reverse_nil]

theorem not_isBlank_head_trimStart (t : Text) : ∀ c ∈ t.trimStart.head?, ¬ isBlank c := by
  intro c hc
  have h := List.head?_dropWhile_not isBlank t
  rw [trimStart] at hc
  rw [hc] at h
  simpa using h

theorem not_isBlank_last_trimEnd (t : Text) : ∀ c ∈ t.trimEnd.getLast?, ¬ isBlank c := by
  intro c hc
  rw [trimEnd, dropTrailing, List.getLast?_reverse] at hc
  exact not_isBlank_head_trimStart t.reverse c hc

theorem trimEnd_isPrefix (t : Text) : t.trimEnd <+: t := ⟨_, dropTrailing_append isBlank t⟩

theorem head_of_mem_head?_trimEnd {d : Char} (h : d ∈ (trimEnd (c :: t)).head?) : d = c := by
  obtain ⟨rest, hrest⟩ := trimEnd_isPrefix (c :: t)
  cases htrim : trimEnd (c :: t) with
  | nil => simp [htrim] at h
  | cons e u =>
    rw [htrim] at h hrest
    cases h
    exact (List.cons.inj hrest).1

theorem trimStart_suffix (t : Text) : t.trimStart <:+ t := List.dropWhile_suffix isBlank

theorem trim_isInfix (t : Text) : t.trim <:+: t :=
  (trimEnd_isPrefix t.trimStart).isInfix.trans (trimStart_suffix t).isInfix

theorem trimmed_trim (t : Text) : Trimmed t.trim where
  head := by
    intro c hc
    obtain ⟨rest, hrest⟩ := trimEnd_isPrefix t.trimStart
    apply not_isBlank_head_trimStart t c
    rw [← hrest, List.head?_append, ← trim, hc, Option.some_or]
    rfl
  last := not_isBlank_last_trimEnd t.trimStart

theorem Trimmed.append (hs : ∀ c ∈ s.head?, ¬ isBlank c) (hsne : s ≠ [])
    (ht : ∀ c ∈ t.getLast?, ¬ isBlank c) (htne : t ≠ []) : Trimmed (s ++ t) where
  head := by
    obtain ⟨c, s, rfl⟩ := List.exists_cons_of_ne_nil hsne
    exact hs
  last := by
    rwa [List.getLast?_append, List.getLast?_eq_some_getLast htne, Option.some_or,
      ← List.getLast?_eq_some_getLast htne]

theorem Trimmed.trim_eq (h : Trimmed t) : t.trim = t := by
  rw [trim, trimStart_eq_self h.head, trimEnd_eq_self h.last]

theorem trim_blank_append (h : ∀ c ∈ w, isBlank c) (t : Text) : trim (w ++ t) = trim t := by
  rw [trim, trimStart_blank_append h, trim]

theorem trim_append_blank (t : Text) (h : ∀ c ∈ w, isBlank c) : trim (t ++ w) = trim t := by
  by_cases hblank : ∀ c ∈ t, isBlank c
  · have hw := trim_blank_append h []
    have ht := trim_blank_append hblank []
    rw [List.append_nil] at hw ht
    rw [trim_blank_append hblank, hw, ht]
  · have hne : (t.dropWhile isBlank).isEmpty = false := by
      simpa [List.dropWhile_eq_nil_iff] using hblank
    have hw : ∀ c ∈ w.reverse, isBlank c := fun c hc => h c (List.mem_reverse.1 hc)
    simp only [trim, trimStart, trimEnd, dropTrailing, List.dropWhile_append, hne,
      Bool.false_eq_true, if_false, List.reverse_append, List.dropWhile_append_of_pos hw]

/-- What ignores blanks in front ignores whether they are trimmed. -/
theorem apply_trimStart {α : Type} {f : Text → α}
    (h : ∀ w t, (∀ c ∈ w, isBlank c) → f (w ++ t) = f t) (t : Text) : f t.trimStart = f t := by
  have hblank : ∀ c ∈ t.takeWhile isBlank, isBlank c := fun c hc => List.mem_takeWhile_imp hc
  calc f t.trimStart
    _ = f (t.takeWhile isBlank ++ t.trimStart) := (h _ _ hblank).symm
    _ = f t := by rw [trimStart, List.takeWhile_append_dropWhile]

theorem apply_trimEnd {α : Type} {f : Text → α}
    (h : ∀ t w, (∀ c ∈ w, isBlank c) → f (t ++ w) = f t) (t : Text) : f t.trimEnd = f t := by
  have hblank : ∀ c ∈ (t.reverse.takeWhile isBlank).reverse, isBlank c :=
    fun c hc => List.mem_takeWhile_imp (List.mem_reverse.1 hc)
  calc f t.trimEnd
    _ = f (t.trimEnd ++ (t.reverse.takeWhile isBlank).reverse) := (h _ _ hblank).symm
    _ = f t := by rw [trimEnd, dropTrailing_append]

theorem trim_trimEnd (t : Text) : trim t.trimEnd = trim t :=
  apply_trimEnd (fun t _ => trim_append_blank t) t

theorem words_trimStart (t : Text) : words t.trimStart = words t :=
  apply_trimStart (fun _ t hw => words_blank_append hw t) t

theorem words_trimEnd (t : Text) : words t.trimEnd = words t :=
  apply_trimEnd (fun t _ => words_append_of_blank t) t

theorem words_trim (t : Text) : words t.trim = words t := by
  rw [trim, words_trimEnd, words_trimStart]

theorem trim_eq_nil_iff : t.trim = [] ↔ words t = [] := by
  rw [← words_trim]
  constructor
  · intro h
    rw [h, words_nil]
  · intro h
    rw [words_eq_nil_iff] at h
    cases htrim : t.trim with
    | nil => rfl
    | cons c u =>
      rw [htrim] at h
      exact absurd (h c List.mem_cons_self) ((trimmed_trim t).head c (by simp [htrim]))

end TemplateProjection.Text
