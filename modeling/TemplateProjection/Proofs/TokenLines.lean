import TemplateProjection.Analysis.SemanticToken
import TemplateProjection.Proofs.LineTables

/-!
The tokens of a span of source text, one for each of its lines: together they cover the bytes of the
span that are not line feeds, and nothing else.
-/
namespace TemplateProjection

variable {t : Text} {span : Span} {type : TokenType} {modifiers : UInt32} {token : SemanticToken}
  {offset line start length : Nat}

namespace SemanticToken

/-- The byte at the offset is one of the token's, which starts at its column of its line. -/
def Covers (table : LineTable) (token : SemanticToken) (offset : Nat) : Prop :=
  ∃ line, table.lineSpan? token.line = some line ∧ line.start + token.column ≤ offset ∧
    offset < line.start + token.column + token.length

end SemanticToken

/-- A token lies on one of the lines of the span, at the columns that the span has there. -/
theorem mem_splitLines {table : LineTable} :
    token ∈ splitLines table span type modifiers ↔
      (table.position span.start).line ≤ token.line ∧
      token.line ≤ (table.position span.stop).line ∧
      ∃ first last, lineColumns table (table.position span.start) (table.position span.stop)
          token.line = (first, last) ∧ first < last ∧
        token = ⟨token.line, first, last - first, type, modifiers⟩ := by
  simp only [splitLines, List.mem_filterMap, List.mem_range'_1]
  constructor
  · rintro ⟨line, hline, htoken⟩
    split at htoken
    · next hlt =>
      cases htoken
      have hlast : line ≤ (table.position span.stop).line := by omega
      exact ⟨hline.1, hlast, _, _, rfl, hlt, rfl⟩
    · cases htoken
  · rintro ⟨hfirst, hlast, first, last, hcolumns, hlt, htoken⟩
    refine ⟨token.line, by omega, ?_⟩
    rw [hcolumns, if_pos hlt, ← htoken]

/-- The columns of a span on one of its lines bound what the span and the line have in common. -/
theorem lineColumns_eq {first last : Nat}
    (hstart : (LineTable.ofText t).starts[line]? = some start)
    (hline : (LineTable.ofText t).lineSpan? line = some ⟨start, length⟩)
    (hfirst : ((LineTable.ofText t).position span.start).line ≤ line)
    (hlast : line ≤ ((LineTable.ofText t).position span.stop).line)
    (hcolumns : lineColumns (.ofText t) ((LineTable.ofText t).position span.start)
      ((LineTable.ofText t).position span.stop) line = (first, last)) :
    start + first = max start (min span.start t.byteLength) ∧
      start + last = min (start + length) (min span.stop t.byteLength) := by
  have hsorted := LineTable.pairwise_starts t
  obtain ⟨length', hline', hon⟩ := LineTable.lineSpan?_of_start hstart
  obtain rfl : length = length' := by simpa [hline] using hline'
  obtain ⟨a, ha, hacolumn⟩ := LineTable.position_onLine t span.start
  obtain ⟨b, hb, hbcolumn⟩ := LineTable.position_onLine t span.stop
  generalize (LineTable.ofText t).position span.start = p at *
  generalize (LineTable.ofText t).position span.stop = q at *
  generalize hp : min span.start t.byteLength = from' at *
  generalize hq : min span.stop t.byteLength = to' at *
  obtain ⟨rfl, rfl⟩ := Prod.mk.inj hcolumns
  constructor
  · split
    · next heq =>
      subst heq
      obtain rfl := Option.some.inj (ha.starts.symm.trans hstart)
      have := ha.start_le
      omega
    · next hne =>
      -- on a later line than its first the span starts before the line
      have hbefore : from' < start := ha.lt hsorted (.of_start hsorted hstart) (by omega)
      omega
  · split
    · next heq =>
      subst heq
      obtain rfl := Option.some.inj (hb.starts.symm.trans hstart)
      have := ((hon to').1 ⟨hb, by omega⟩).2
      omega
    · next hne =>
      -- on an earlier line than its last the span stops behind the line
      have hend := ((hon (start + length)).2 ⟨Nat.le_add_right _ _, Nat.le_refl _⟩).1
      have hbehind : start + length < to' := hend.lt hsorted hb (by omega)
      rw [hline, Option.map_some, Option.getD_some]
      show start + length = _
      omega

/-- A token has the bytes that the span and its line have in common. -/
theorem of_mem_splitLines (h : token ∈ splitLines (.ofText t) span type modifiers) :
    ∃ start length, (LineTable.ofText t).starts[token.line]? = some start ∧
      (LineTable.ofText t).lineSpan? token.line = some ⟨start, length⟩ ∧
      start + token.column = max start (min span.start t.byteLength) ∧
      start + token.column + token.length =
        min (start + length) (min span.stop t.byteLength) ∧
      0 < token.length ∧ token.type = type ∧ token.modifiers = modifiers := by
  obtain ⟨hfirst, hlast, first, last, hcolumns, hlt, htoken⟩ := mem_splitLines.1 h
  obtain ⟨b, hb, -⟩ := LineTable.position_onLine t span.stop
  have hcount := (List.getElem?_eq_some_iff.1 hb.starts).1
  obtain ⟨start, hstart⟩ : ∃ start, (LineTable.ofText t).starts[token.line]? = some start :=
    ⟨_, List.getElem?_eq_getElem (Nat.lt_of_le_of_lt hlast hcount)⟩
  obtain ⟨length, hline, -⟩ := LineTable.lineSpan?_of_start hstart
  obtain ⟨hmax, hmin⟩ := lineColumns_eq hstart hline hfirst hlast hcolumns
  rw [htoken] at hline hstart ⊢
  refine ⟨start, length, hstart, hline, hmax, ?_, Nat.sub_pos_of_lt hlt, rfl, rfl⟩
  show start + first + (last - first) = _
  omega

/-- A byte that is no line feed and lies in the span belongs to a token, and no other byte does. -/
theorem exists_covers_splitLines :
    (∃ token ∈ splitLines (.ofText t) span type modifiers, token.Covers (.ofText t) offset) ↔
      span.start ≤ offset ∧ offset < min span.stop t.byteLength ∧ t.utf8[offset]? ≠ some 10 := by
  have hsorted := LineTable.pairwise_starts t
  constructor
  · rintro ⟨token, htoken, line, hline, hfrom, hto⟩
    obtain ⟨start, length, hstart, hline', hmax, hmin, -⟩ := of_mem_splitLines htoken
    obtain rfl := Option.some.inj (hline.symm.trans hline')
    obtain ⟨length', hline', hon⟩ := LineTable.lineSpan?_of_start hstart
    obtain rfl : length = length' := by simpa [hline] using hline'
    simp only at hfrom hto
    have hafter : start ≤ offset := by omega
    have hbefore : offset < start + length := by omega
    have hthis := ((hon offset).2 ⟨hafter, Nat.le_of_lt hbefore⟩).1
    have hnext := ((hon (offset + 1)).2 ⟨Nat.le_succ_of_le hafter, hbefore⟩).1
    exact ⟨by omega, by omega, hthis.succ_iff.1 hnext⟩
  · rintro ⟨hfrom, hto, hfeed⟩
    have hlength : offset < t.byteLength := by omega
    obtain ⟨start, hthis, -⟩ := LineTable.position_onLine t offset
    rw [Nat.min_eq_left (Nat.le_of_lt hlength)] at hthis
    generalize ((LineTable.ofText t).position offset).line = line at hthis
    have hnext := hthis.succ_iff.2 hfeed
    obtain ⟨length, hline, hon⟩ := LineTable.lineSpan?_of_start hthis.starts
    have hstop := ((hon (offset + 1)).1 ⟨hnext, hlength⟩).2
    -- the line is one of those of the span
    obtain ⟨_, ha, -⟩ := LineTable.position_onLine t span.start
    obtain ⟨_, hb, -⟩ := LineTable.position_onLine t span.stop
    have hfirst := ha.mono hsorted hthis (Nat.le_trans (Nat.min_le_left _ _) hfrom)
    have hlast := hthis.mono hsorted hb (by omega)
    rcases hcolumns : lineColumns (.ofText t) ((LineTable.ofText t).position span.start)
      ((LineTable.ofText t).position span.stop) line with ⟨first, last⟩
    obtain ⟨hmax, hmin⟩ := lineColumns_eq hthis.starts hline hfirst hlast hcolumns
    have hstart := hthis.start_le
    refine ⟨⟨line, first, last - first, type, modifiers⟩,
      mem_splitLines.2 ⟨hfirst, hlast, first, last, hcolumns, by omega, rfl⟩, _, hline, ?_, ?_⟩
    · show start + first ≤ offset
      omega
    · show offset < start + first + (last - first)
      omega

theorem pairwise_splitLines (table : LineTable) (span : Span) (type : TokenType)
    (modifiers : UInt32) :
    (splitLines table span type modifiers).Pairwise (·.line < ·.line) := by
  refine List.Pairwise.filterMap _ (fun line line' hlt token htoken token' htoken' => ?_)
    (List.pairwise_lt_range' _)
  obtain rfl := Option.some.inj (Option.ite_none_right_eq_some.1 htoken).2
  obtain rfl := Option.some.inj (Option.ite_none_right_eq_some.1 htoken').2
  exact hlt

/-- Splitting a span into lines covers it exactly. The tokens are not empty, each stands on a later
line than the one before and lies inside its line, and together they have those bytes of the text in
the span that are not line feeds. -/
theorem splitLines_covers (t : Text) (span : Span) (type : TokenType) (modifiers : UInt32) :
    (∀ token ∈ splitLines (.ofText t) span type modifiers,
      0 < token.length ∧ token.type = type ∧ token.modifiers = modifiers ∧
        ∃ line, (LineTable.ofText t).lineSpan? token.line = some line ∧
          token.column + token.length ≤ line.length) ∧
    (splitLines (.ofText t) span type modifiers).Pairwise (·.line < ·.line) ∧
    ∀ offset, (∃ token ∈ splitLines (.ofText t) span type modifiers,
        token.Covers (.ofText t) offset) ↔
      span.start ≤ offset ∧ offset < min span.stop t.byteLength ∧ t.utf8[offset]? ≠ some 10 := by
  refine ⟨fun token htoken => ?_, pairwise_splitLines _ _ _ _, fun _ => exists_covers_splitLines⟩
  obtain ⟨start, length, -, hline, -, hmin, hpos, htype, hmodifiers⟩ := of_mem_splitLines htoken
  refine ⟨hpos, htype, hmodifiers, _, hline, ?_⟩
  show token.column + token.length ≤ length
  omega

/-- A span over an empty line and past the end of the text. The last token has both bytes of the
last character, and nothing has the line feed of the empty line. -/
theorem splitLines_covers_empty_line :
    let t := "ab\n\ncé".toList
    let last : SemanticToken := ⟨2, 0, 3, .property, 1⟩
    splitLines (.ofText t) ⟨1, 20⟩ .property 1 = [⟨0, 1, 1, .property, 1⟩, last] ∧
      (∃ line, (LineTable.ofText t).lineSpan? 2 = some line ∧ 0 + 3 ≤ line.length) ∧
      (∃ token ∈ splitLines (.ofText t) ⟨1, 20⟩ .property 1, token.Covers (.ofText t) 6) ∧
      ¬ ∃ token ∈ splitLines (.ofText t) ⟨1, 20⟩ .property 1, token.Covers (.ofText t) 3 := by
  intro t last
  have hsplit : splitLines (.ofText t) ⟨1, 20⟩ .property 1 = [⟨0, 1, 1, .property, 1⟩, last] := by
    decide +kernel
  have hmem : last ∈ splitLines (.ofText t) ⟨1, 20⟩ .property 1 := by simp [hsplit]
  obtain ⟨hinside, -, hcovers⟩ := splitLines_covers t ⟨1, 20⟩ .property 1
  obtain ⟨-, -, -, hline⟩ := hinside last hmem
  refine ⟨hsplit, hline, (hcovers 6).2 (by decide +kernel), fun hcovered => ?_⟩
  exact ((hcovers 3).1 hcovered).2.2 (by decide +kernel)

end TemplateProjection
