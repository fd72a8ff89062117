import Mathlib.Data.List.TakeWhile
import TemplateProjection.Proofs.Encoding
import TemplateProjection.Proofs.Excerpt
import TemplateProjection.Text.LineTable

/-!
Where the lines of a text lie: each starts at the beginning or just after a line feed, and an offset
is on the last line that does not start behind it.
-/
namespace TemplateProjection

namespace LineTable

variable {t : Text} {table : LineTable} {offset offset' line line' start start' : Nat}

theorem mem_startsAfter {s : Nat} : s ∈ startsAfter offset t ↔
    ∃ before after, t = before ++ '\n' :: after ∧ s = offset + before.byteLength + 1 := by
  have hfeed : Char.utf8Size '\n' = 1 := by decide
  induction t generalizing offset with
  | nil => simp [startsAfter]
  | cons c t ih =>
    -- a line feed further on is one of the rest
    have hrest : s ∈ startsAfter (offset + c.utf8Size) t ↔
        ∃ before after, c :: t = c :: before ++ '\n' :: after ∧
          s = offset + Text.byteLength (c :: before) + 1 := by
      refine ih.trans (exists_congr fun before => exists_congr fun after => and_congr (by simp) ?_)
      rw [Text.byteLength_cons, Nat.add_assoc offset]
    rw [startsAfter]
    constructor
    · intro h
      split at h
      · next hc =>
        subst hc
        rcases List.mem_cons.1 h with rfl | h
        · exact ⟨[], t, rfl, rfl⟩
        · rw [← hfeed] at h
          obtain ⟨before, after, heq, rfl⟩ := hrest.1 h
          exact ⟨_, after, heq, rfl⟩
      · obtain ⟨before, after, heq, rfl⟩ := hrest.1 h
        exact ⟨_, after, heq, rfl⟩
    · rintro ⟨before, after, heq, rfl⟩
      cases before with
      | nil =>
        cases heq
        simp
      | cons d before =>
        cases heq
        have h := hrest.2 ⟨before, after, rfl, rfl⟩
        split
        · next hc =>
          rw [hc, hfeed] at h
          rw [hc]
          exact List.mem_cons_of_mem _ h
        · exact h

theorem pairwise_startsAfter (offset : Nat) (t : Text) :
    (offset :: startsAfter offset t).Pairwise (· < ·) := by
  have hlater : ∀ offset t, ∀ s ∈ startsAfter offset t, offset < s := by
    intro offset t s hs
    obtain ⟨before, -, -, rfl⟩ := mem_startsAfter.1 hs
    omega
  induction t generalizing offset with
  | nil => exact List.pairwise_singleton _ _
  | cons c t ih =>
    rw [List.pairwise_cons]
    refine ⟨hlater offset (c :: t), ?_⟩
    rw [startsAfter]
    split
    · exact ih (offset + 1)
    · exact (List.pairwise_cons.1 (ih (offset + c.utf8Size))).2

theorem pairwise_starts (t : Text) : (ofText t).starts.Pairwise (· < ·) := pairwise_startsAfter 0 t

/-- A line starts at the beginning of the text or just after a line feed. -/
theorem mem_starts : start ∈ (ofText t).starts ↔
    start = 0 ∨ ∃ feed, t.utf8[feed]? = some 10 ∧ start = feed + 1 := by
  show start ∈ 0 :: startsAfter 0 t ↔ _
  rw [List.mem_cons, mem_startsAfter]
  refine or_congr Iff.rfl ?_
  constructor
  · rintro ⟨before, after, heq, rfl⟩
    exact ⟨_, Text.utf8_getElem?_eq_lineFeed.2 ⟨before, after, heq, rfl⟩, by omega⟩
  · rintro ⟨feed, hfeed, rfl⟩
    obtain ⟨before, after, heq, rfl⟩ := Text.utf8_getElem?_eq_lineFeed.1 hfeed
    exact ⟨before, after, heq, by omega⟩

theorem le_length_of_mem_starts (h : start ∈ (ofText t).starts) : start ≤ t.byteLength := by
  rcases mem_starts.1 h with rfl | ⟨feed, hfeed, rfl⟩
  · exact Nat.zero_le _
  · have := (List.getElem?_eq_some_iff.1 hfeed).1
    rw [Text.length_utf8] at this
    exact this

/-- The offset is on the line, which starts at `start`. -/
structure OnLine (table : LineTable) (offset line start : Nat) : Prop where
  starts : table.starts[line]? = some start
  start_le : start ≤ offset
  lt_next : ∀ next, table.starts[line + 1]? = some next → offset < next

/-- What is on an earlier line has an earlier offset. -/
theorem OnLine.lt (hsorted : table.starts.Pairwise (· < ·)) (h : table.OnLine offset line start)
    (h' : table.OnLine offset' line' start') (hlt : line < line') : offset < offset' := by
  obtain ⟨hline', hstart'⟩ := List.getElem?_eq_some_iff.1 h'.starts
  have hnext := h.lt_next _ (List.getElem?_eq_getElem (by omega))
  have hbefore : table.starts[line + 1] ≤ table.starts[line'] := by
    rcases Nat.lt_or_ge (line + 1) line' with hlt' | hge'
    · exact Nat.le_of_lt (List.pairwise_iff_getElem.1 hsorted _ _ _ _ hlt')
    · obtain rfl : line' = line + 1 := by omega
      exact Nat.le_refl _
  have := h'.start_le
  omega

theorem OnLine.mono (hsorted : table.starts.Pairwise (· < ·)) (h : table.OnLine offset line start)
    (h' : table.OnLine offset' line' start') (hle : offset ≤ offset') : line ≤ line' := by
  rcases Nat.lt_or_ge line' line with hlt | hge
  · exact absurd (h'.lt hsorted h hlt) (Nat.not_lt.2 hle)
  · exact hge

theorem OnLine.unique (hsorted : table.starts.Pairwise (· < ·))
    (h : table.OnLine offset line start) (h' : table.OnLine offset line' start') :
    line = line' ∧ start = start' := by
  have hline : line = line' := Nat.le_antisymm (h.mono hsorted h' (Nat.le_refl _))
    (h'.mono hsorted h (Nat.le_refl _))
  subst hline
  exact ⟨rfl, Option.some.inj (h.starts.symm.trans h'.starts)⟩

/-- The position of an offset is its line, and how far it is from the line's start. -/
theorem position_onLine (t : Text) (offset : Nat) :
    ∃ start, (ofText t).OnLine (min offset t.byteLength) ((ofText t).position offset).line start ∧
      start + ((ofText t).position offset).column = min offset t.byteLength := by
  have hlength : (ofText t).length = t.byteLength := rfl
  generalize hclamped : min offset t.byteLength = o
  -- the lines that start at the offset or before it, and those that start behind it
  obtain ⟨early, hearly⟩ : ∃ early, (ofText t).starts.takeWhile (· ≤ o) = 0 :: early :=
    ⟨(startsAfter 0 t).takeWhile (· ≤ o), by simp [ofText]⟩
  have hsplit := List.takeWhile_append_dropWhile (p := (· ≤ o)) (l := (ofText t).starts)
  have hline : ((ofText t).position offset).line = early.length := by
    simp [position, hlength, hclamped, hearly]
  have hcolumn : ((ofText t).position offset).column =
      o - (ofText t).starts.getD early.length 0 := by
    simp [position, hlength, hclamped, hearly]
  have hstart : (ofText t).starts[early.length]? = some ((0 :: early)[early.length]) := by
    rw [← hsplit, hearly, List.getElem?_append_left (by simp)]
    exact List.getElem?_eq_getElem _
  have hle : (0 :: early)[early.length] ≤ o := by
    have hmem : (0 :: early)[early.length] ∈ (ofText t).starts.takeWhile (· ≤ o) := by
      rw [hearly]
      exact List.getElem_mem _
    have hp := List.mem_takeWhile_imp hmem
    exact of_decide_eq_true hp
  rw [hline, hcolumn]
  refine ⟨_, ⟨hstart, hle, fun next hnext => ?_⟩, ?_⟩
  · rw [← hsplit, hearly, List.getElem?_append_right (by simp)] at hnext
    have hhead : ((ofText t).starts.dropWhile (· ≤ o)).head? = some next := by
      simpa [List.head?_eq_getElem?] using hnext
    have := List.head?_dropWhile_not (p := (· ≤ o)) (l := (ofText t).starts)
    rw [hhead] at this
    simpa using this
  · rw [List.getD_eq_getElem?_getD, hstart, Option.getD_some]
    omega

/-- A line's start is on the line. -/
theorem OnLine.of_start (hsorted : table.starts.Pairwise (· < ·))
    (h : table.starts[line]? = some start) : table.OnLine start line start := by
  refine ⟨h, Nat.le_refl _, fun next hnext => ?_⟩
  obtain ⟨hline, rfl⟩ := List.getElem?_eq_some_iff.1 h
  obtain ⟨hline', rfl⟩ := List.getElem?_eq_some_iff.1 hnext
  exact List.pairwise_iff_getElem.1 hsorted _ _ hline hline' (Nat.lt_succ_self line)

/-- The offset behind a byte is on the same line, unless the byte is a line feed. -/
theorem OnLine.succ_iff (h : (ofText t).OnLine offset line start) :
    (ofText t).OnLine (offset + 1) line start ↔ t.utf8[offset]? ≠ some 10 := by
  constructor
  · intro hnext hfeed
    obtain ⟨line', hline'⟩ := List.mem_iff_getElem?.1 (mem_starts.2 (.inr ⟨offset, hfeed, rfl⟩))
    have heq := (hnext.unique (pairwise_starts t) (.of_start (pairwise_starts t) hline')).2
    have := h.start_le
    omega
  · intro hbyte
    refine ⟨h.starts, Nat.le_succ_of_le h.start_le, fun next hnext => ?_⟩
    have hlt := h.lt_next next hnext
    rcases mem_starts.1 (List.mem_of_getElem? hnext) with rfl | ⟨feed, hfeed, rfl⟩
    · omega
    · have hne : feed ≠ offset := by
        rintro rfl
        exact hbyte hfeed
      omega

/-- The span of a line reaches from its start to the last offset on the line. -/
theorem lineSpan?_of_start (h : (ofText t).starts[line]? = some start) :
    ∃ length, (ofText t).lineSpan? line = some ⟨start, length⟩ ∧
      ∀ offset, (ofText t).OnLine offset line start ∧ offset ≤ t.byteLength ↔
        start ≤ offset ∧ offset ≤ start + length := by
  have hlength : (ofText t).length = t.byteLength := rfl
  have hon := OnLine.of_start (pairwise_starts t) h
  cases hnext : (ofText t).starts[line + 1]? with
  | some next =>
    have hlt := hon.lt_next next hnext
    have hle := le_length_of_mem_starts (List.mem_of_getElem? hnext)
    refine ⟨next - 1 - start, by simp [lineSpan?, h, hnext, Span.between], fun offset => ?_⟩
    constructor
    · rintro ⟨⟨-, hstart, hbefore⟩, -⟩
      have := hbefore next hnext
      omega
    · rintro ⟨hstart, hstop⟩
      refine ⟨⟨h, hstart, fun next' hnext' => ?_⟩, by omega⟩
      obtain rfl := Option.some.inj (hnext.symm.trans hnext')
      omega
  | none =>
    have hle := le_length_of_mem_starts (List.mem_of_getElem? h)
    refine ⟨t.byteLength - start, by simp [lineSpan?, h, hnext, Span.between, hlength],
      fun offset => ?_⟩
    constructor
    · rintro ⟨⟨-, hstart, -⟩, hstop⟩
      omega
    · rintro ⟨hstart, hstop⟩
      refine ⟨⟨h, hstart, fun next' hnext' => ?_⟩, by omega⟩
      rw [hnext] at hnext'
      cases hnext'

end LineTable

end TemplateProjection
