import TemplateProjection.Proofs.LineTables
import TemplateProjection.Proofs.Words

/-!
The line table of a text is as good as the text. Its lines, joined with line feeds, are the text,
and the offsets of the text answer one to one, and in order, to the columns of the lines.
-/
namespace TemplateProjection

/-- The position is on an earlier line than the other, or before it on the same line. -/
def Position.Before (p q : Position) : Prop :=
  p.line < q.line ∨ p.line = q.line ∧ p.column < q.column

namespace LineTable

variable {t l : Text} {ls : List Text} {span : Span} {offset offset' line column : Nat}

/-- The text of a line. -/
def lineText? (t : Text) (line : Nat) : Option Text := ((ofText t).lineSpan? line).bind t.slice?

theorem startsAfter_append (h : '\n' ∉ l) (offset : Nat) (t : Text) :
    startsAfter offset (l ++ t) = startsAfter (offset + l.byteLength) t := by
  induction l generalizing offset with
  | nil => rfl
  | cons c l ih =>
    obtain ⟨hc, hl⟩ := List.ne_and_not_mem_of_not_mem_cons h
    rw [List.cons_append, startsAfter, if_neg (Ne.symm hc), ih hl, Text.byteLength_cons,
      Nat.add_assoc]

/-- No line starts behind the last one. -/
theorem startsAfter_last (h : '\n' ∉ l) (offset : Nat) :
    startsAfter offset (l ++ Text.stack []) = [] := startsAfter_append h offset []

/-- The line below another starts behind the line feed of that one. -/
theorem startsAfter_line (h : '\n' ∉ l) (offset : Nat) (l' : Text) (ls : List Text) :
    startsAfter offset (l ++ Text.stack (l' :: ls)) =
      (offset + l.byteLength + 1) ::
        startsAfter (offset + l.byteLength + 1) (l' ++ Text.stack ls) := by
  rw [startsAfter_append h, Text.stack_cons, List.cons_append, startsAfter, if_pos rfl]

/-- The table of the lines of `t` in a text where `t` stands at the end, behind `lead`. -/
def tableBehind (lead t : Text) : LineTable :=
  ⟨lead.byteLength :: startsAfter lead.byteLength t, lead.byteLength + t.byteLength⟩

theorem tableBehind_nil (t : Text) : tableBehind [] t = ofText t := by
  rw [tableBehind, Text.byteLength_nil, Nat.zero_add, ofText]

/-- The span of the first line ends before its line feed, or with the text. -/
theorem lineSpan?_zero (lead : Text) (h : '\n' ∉ l) (ls : List Text) :
    (tableBehind lead (l ++ Text.stack ls)).lineSpan? 0 =
      some ⟨lead.byteLength, l.byteLength⟩ := by
  cases ls with
  | nil =>
    rw [tableBehind, startsAfter_last h]
    simp [lineSpan?, Span.between]
  | cons l' ls =>
    rw [tableBehind, startsAfter_line h]
    simp [lineSpan?, Span.between]

/-- The lines below the first have the first one in front of them. -/
theorem lineSpan?_succ (lead : Text) (h : '\n' ∉ l) (l' : Text) (ls : List Text) (line : Nat) :
    (tableBehind lead (l ++ Text.stack (l' :: ls))).lineSpan? (line + 1) =
      (tableBehind (lead ++ (l ++ ['\n'])) (l' ++ Text.stack ls)).lineSpan? line := by
  have hfeed : Char.utf8Size '\n' = 1 := by decide
  rw [tableBehind, tableBehind, startsAfter_line h]
  simp only [Text.stack_cons, List.cons_append, Text.byteLength_append, Text.byteLength_cons,
    Text.byteLength_nil, hfeed, Nat.add_zero, Nat.add_assoc]
  rfl

/-- The spans of the lines hold the lines, and there are no others. By induction on the number of
the line: the lines below the first count from it, and have it in front of them. -/
theorem lineSpan?_stack (lead : Text) (h : ∀ l' ∈ l :: ls, '\n' ∉ l') (line : Nat) :
    ((tableBehind lead (l ++ Text.stack ls)).lineSpan? line).map
      (lead ++ (l ++ Text.stack ls)).slice? = (l :: ls)[line]?.map some := by
  induction line generalizing lead l ls with
  | zero =>
    rw [lineSpan?_zero lead (h l List.mem_cons_self), Option.map_some]
    exact congrArg some (Text.slice?_eq_some_iff.2 ⟨lead, Text.stack ls, by simp, rfl, rfl⟩)
  | succ line ih =>
    obtain ⟨hl, hls⟩ := List.forall_mem_cons.1 h
    cases ls with
    | nil =>
      rw [tableBehind, startsAfter_last hl]
      rfl
    | cons l' ls =>
      have hbelow := ih (lead ++ (l ++ ['\n'])) hls
      rw [lineSpan?_succ lead hl]
      simpa using hbelow

/-- The spans of the lines hold the pieces between line feeds. -/
theorem lineSpan?_split (t : Text) (line : Nat) :
    ((ofText t).lineSpan? line).map t.slice? = (Text.split '\n' t)[line]?.map some := by
  obtain ⟨l, ls, hsplit⟩ := List.exists_cons_of_ne_nil (Text.split_ne_nil '\n' t)
  have hlines : ∀ l' ∈ l :: ls, '\n' ∉ l' := by
    rw [← hsplit]
    exact fun _ => Text.not_mem_of_mem_split
  have ht : t = l ++ Text.stack ls := by rw [← Text.join_eq_stack, ← hsplit, Text.join_split]
  have hstack := lineSpan?_stack [] hlines line
  rw [List.nil_append, ← ht, tableBehind_nil, ← hsplit] at hstack
  exact hstack

theorem lineSpan?_eq_none_iff {table : LineTable} :
    table.lineSpan? line = none ↔ table.lineCount ≤ line := by
  rw [lineCount, ← List.getElem?_eq_none_iff]
  cases hstart : table.starts[line]? with
  | none => simp [lineSpan?, hstart]
  | some start => cases hnext : table.starts[line + 1]? <;> simp [lineSpan?, hstart, hnext]

theorem lineCount_eq (t : Text) : (ofText t).lineCount = (Text.split '\n' t).length := by
  have hsame : ∀ line, (ofText t).lineCount ≤ line ↔ (Text.split '\n' t).length ≤ line := by
    intro line
    have hnone := congrArg (· = none) (lineSpan?_split t line)
    simpa [lineSpan?_eq_none_iff] using hnone
  exact Nat.le_antisymm ((hsame _).2 (Nat.le_refl _)) ((hsame _).1 (Nat.le_refl _))

/-- The lines of the table are the pieces between line feeds. -/
theorem map_lineText? (t : Text) :
    (List.range (ofText t).lineCount).map (lineText? t) = (Text.split '\n' t).map some := by
  have hline : ∀ line, lineText? t line = (Text.split '\n' t)[line]? := by
    intro line
    have hbind := congrArg (·.bind id) (lineSpan?_split t line)
    simpa [lineText?, Option.bind_map] using hbind
  refine List.ext_getElem (by simp [lineCount_eq]) fun line _ hlt => ?_
  rw [List.length_map] at hlt
  simp [hline, hlt]

/-- An offset of the text is as far from the start of its line as its column says, which is not
further than the line reaches. -/
theorem position_column (h : offset ≤ t.byteLength) :
    ∃ span, (ofText t).lineSpan? ((ofText t).position offset).line = some span ∧
      span.start + ((ofText t).position offset).column = offset ∧
      ((ofText t).position offset).column ≤ span.length := by
  obtain ⟨start, hon, hcolumn⟩ := position_onLine t offset
  rw [Nat.min_eq_left h] at hon hcolumn
  obtain ⟨length, hspan, hreach⟩ := lineSpan?_of_start hon.starts
  have hstop := ((hreach offset).1 ⟨hon, h⟩).2
  exact ⟨_, hspan, hcolumn, by simp only; omega⟩

/-- Every column that a line reaches is the position of one offset. -/
theorem position_of_column (h : (ofText t).lineSpan? line = some span)
    (hcolumn : column ≤ span.length) :
    span.start + column ≤ t.byteLength ∧
      (ofText t).position (span.start + column) = ⟨line, column⟩ := by
  have hlt : line < (ofText t).starts.length := by
    refine Nat.lt_of_not_le fun hle => ?_
    have hnone := lineSpan?_eq_none_iff.2 hle
    rw [hnone] at h
    cases h
  obtain ⟨length, hspan, hreach⟩ := lineSpan?_of_start (List.getElem?_eq_getElem hlt)
  obtain rfl := Option.some.inj (hspan.symm.trans h)
  obtain ⟨hon, hle⟩ := (hreach _).2 ⟨Nat.le_add_right _ column, Nat.add_le_add_left hcolumn _⟩
  refine ⟨hle, ?_⟩
  obtain ⟨start, hon', hstart⟩ := position_onLine t ((ofText t).starts[line] + column)
  rw [Nat.min_eq_left hle] at hon' hstart
  obtain ⟨hline, rfl⟩ := hon'.unique (pairwise_starts t) hon
  exact congrArg₂ Position.mk hline (Nat.add_left_cancel hstart)

/-- A later offset has a later position. -/
theorem position_before (hlt : offset < offset') (hle : offset' ≤ t.byteLength) :
    ((ofText t).position offset).Before ((ofText t).position offset') := by
  obtain ⟨start, hon, hcolumn⟩ := position_onLine t offset
  obtain ⟨start', hon', hcolumn'⟩ := position_onLine t offset'
  rw [Nat.min_eq_left (by omega)] at hon hon' hcolumn hcolumn'
  have hline := hon.mono (pairwise_starts t) hon' (Nat.le_of_lt hlt)
  rcases Nat.lt_or_eq_of_le hline with hline | hline
  · exact .inl hline
  · -- on one line both are counted from the same start
    rw [hline] at hon
    obtain rfl := Option.some.inj (hon.starts.symm.trans hon'.starts)
    exact .inr ⟨hline, by omega⟩

/-- A line table and its text determine each other. The lines, joined with line feeds, are the text,
and none of them has a line feed in it; there are no others. The position of an offset of the text
is a column of a line, as far from the line's start as the offset is, and each column that a line
reaches is the position of one offset. An offset past the end has the position of the end, and
otherwise a later offset has a later position. -/
theorem positions_correspond (t : Text) :
    (∃ lines, (List.range (ofText t).lineCount).map (lineText? t) = lines.map some ∧
      Text.join ['\n'] lines = t ∧ ∀ line ∈ lines, '\n' ∉ line) ∧
    (∀ line, (ofText t).lineCount ≤ line → (ofText t).lineSpan? line = none) ∧
    (∀ offset ≤ t.byteLength,
      ∃ span, (ofText t).lineSpan? ((ofText t).position offset).line = some span ∧
        span.start + ((ofText t).position offset).column = offset ∧
        ((ofText t).position offset).column ≤ span.length) ∧
    (∀ line span, (ofText t).lineSpan? line = some span → ∀ column ≤ span.length,
      span.start + column ≤ t.byteLength ∧
        (ofText t).position (span.start + column) = ⟨line, column⟩) ∧
    (∀ offset, t.byteLength ≤ offset →
      (ofText t).position offset = (ofText t).position t.byteLength) ∧
    ∀ offset offset', offset < offset' → offset' ≤ t.byteLength →
      ((ofText t).position offset).Before ((ofText t).position offset') := by
  refine ⟨⟨Text.split '\n' t, map_lineText? t, Text.join_split _ t,
    fun _ => Text.not_mem_of_mem_split⟩, fun _ => lineSpan?_eq_none_iff.2,
    fun _ => position_column, fun _ _ hspan _ => position_of_column hspan, fun offset hle => ?_,
    fun _ _ => position_before⟩
  have hlength : (ofText t).length = t.byteLength := rfl
  simp only [position, hlength, Nat.min_eq_right hle, Nat.min_self]

/-- A text with an empty line and a line feed at its end. -/
theorem positions_correspond_empty_lines :
    let t := "é\n\nab\n".toList
    (ofText t).lineCount = 4 ∧
      (∃ lines, (List.range 4).map (lineText? t) = lines.map some ∧ Text.join ['\n'] lines = t) ∧
      (ofText t).lineSpan? 4 = none ∧
      (∃ span, (ofText t).lineSpan? ((ofText t).position 7).line = some span ∧
        span.start + ((ofText t).position 7).column = 7) ∧
      (ofText t).position 6 = ⟨2, 2⟩ ∧ (ofText t).position 9 = (ofText t).position 7 ∧
      ((ofText t).position 6).Before ((ofText t).position 7) := by
  intro t
  obtain ⟨⟨lines, hlines, hjoin, -⟩, hbeyond, hposition, hcolumn, hpast, hbefore⟩ :=
    positions_correspond t
  obtain ⟨span, hspan, hstart, -⟩ := hposition 7 (by decide +kernel)
  have hcount : (ofText t).lineCount = 4 := by decide +kernel
  rw [hcount] at hlines
  exact ⟨hcount, ⟨lines, hlines, hjoin⟩, hbeyond 4 (by decide +kernel), ⟨span, hspan, hstart⟩,
    (hcolumn 2 ⟨4, 2⟩ (by decide +kernel) 2 (by decide)).2, hpast 9 (by decide +kernel),
    hbefore 6 7 (by decide) (by decide +kernel)⟩

end LineTable

end TemplateProjection
